import Stencil.Proofs.Temporaries.Bindings

/-!
This module contains the fact that the elimination of common subexpressions stays in range. It puts
names in the place of canonical expressions, which takes no computation with their numbers.
-/

namespace Stencil

namespace Temporaries

/-- Nothing in an expression has to be computed when names are put in. -/
def InRange (e : Expr) : Prop := e.isOperation = false ∨ e.Canonical ∧ e.Words

theorem InRange.isStable {e : Expr} (h : InRange e) : IsStable e := h.imp id And.left

theorem InRange.fits_replace {σ : Expr → Option Expr} (hσ : Expr.Naming σ) {e : Expr}
    (h : InRange e) : (e.replace σ).fits = true := by
  rcases h with hleaf | ⟨hcanonical, hwords⟩
  · exact Expr.fits_replace_of_leaf hleaf
  · exact hσ.atomic.fits_replace hcanonical hwords

theorem InRange.replace {σ : Expr → Option Expr} (hσ : Expr.Naming σ) {e : Expr}
    (h : InRange e) : InRange (e.replace σ).value := by
  rcases h with hleaf | ⟨hcanonical, hwords⟩
  · left
    cases hcase : σ e with
    | none => rwa [Expr.value_replace_of_leaf hcase hleaf]
    | some b =>
      obtain ⟨-, s, rfl⟩ := hσ e b hcase
      rw [Expr.value_replace_of_some hcase]
      rfl
  · exact .inr ⟨hσ.canonical_replace hcanonical, hσ.atomic.words_replace hcanonical hwords⟩

theorem InRange.of_mem_operations {e o : Expr} (h : InRange e) (ho : o ∈ e.operations) :
    InRange o := by
  have hwithin := (Expr.mem_operations.1 ho).2
  rcases h with hleaf | ⟨hcanonical, hwords⟩
  · rw [hwithin.eq_of_args (Expr.args_eq_nil hleaf)]
    exact .inl hleaf
  · exact .inr ⟨hcanonical.of_within hwithin, hwords.of_within hwithin⟩

def AllInRange (eqs : List Equation) : Prop := ∀ eq ∈ eqs, InRange eq.lhs ∧ InRange eq.rhs

theorem fits_replaceIn {σ : Expr → Option Expr} (hσ : Expr.Naming σ) {eq : Equation}
    (h : InRange eq.lhs ∧ InRange eq.rhs) : (replaceIn σ eq).fits = true := by
  simp only [replaceIn, Checked.fits_bind, Checked.fits_pure, Bool.and_true, Bool.and_eq_true]
  exact ⟨h.1.fits_replace hσ, h.2.fits_replace hσ⟩

variable {name : Nat → String} {s : State}

theorem State.fits_replace {σ : Expr → Option Expr} (hσ : Expr.Naming σ)
    (h : AllInRange s.equations) : (s.replace σ).fits = true := by
  simp only [State.replace, Checked.fits_bind, Checked.fits_pure, Bool.and_true,
    Bool.and_eq_true, Checked.fits_mapM]
  obtain ⟨htemporaries, hprogram⟩ := List.forall_mem_append.1 h
  exact ⟨fun t ht => fits_replaceIn hσ (htemporaries t ht),
    fun eq heq => fits_replaceIn hσ (hprogram eq heq)⟩

theorem State.inRange_next (h : AllInRange s.equations) :
    AllInRange (s.next fun i => .sym (name i)).equations := by
  intro eq heq
  rcases State.mem_equations_names.1 heq with ⟨j, o, ho, rfl⟩ | ⟨eq', heq', rfl⟩
  · have hmem := State.mem_operations_of_mem_targets (List.mem_of_getElem? ho)
    obtain ⟨eq', heq', ho⟩ := List.mem_flatMap.1 hmem
    exact ⟨.inl rfl, (h eq' heq').2.of_mem_operations ho⟩
  · rw [value_replaceIn]
    exact ⟨(h eq' heq').1.replace s.naming_names, (h eq' heq').2.replace s.naming_names⟩

theorem State.fits_eliminate (fuel : Nat) (h : AllInRange s.equations) :
    (s.eliminate (fun i => .sym (name i)) fuel).fits = true := by
  induction fuel generalizing s with
  | zero => rfl
  | succ fuel ih =>
    rw [State.eliminate]
    split
    · rfl
    · rw [Checked.fits_bind, Bool.and_eq_true]
      refine ⟨State.fits_replace s.naming_names h, ?_⟩
      split
      · rfl
      · exact ih (State.inRange_next h)

theorem State.fits_renumber (hname : Function.Injective name) (hnumbered : s.Numbered name)
    (h : AllInRange s.equations) : s.renumber.fits = true := by
  rw [State.renumber, Checked.fits_mapM]
  intro eq heq
  exact fits_replaceIn (hnumbered.naming_swaps hname) (h eq heq)

theorem fits_eliminate (hname : Function.Injective name) {eqs : List Equation}
    (h : AllInRange eqs) : (eliminate (fun i => .sym (name i)) eqs).fits = true := by
  rw [eliminate, Checked.fits_bind, Bool.and_eq_true]
  refine ⟨State.fits_eliminate _ h, ?_⟩
  have hrounds (fuel : Nat) :
      let s := (State.eliminate (fun i => .sym (name i)) fuel ⟨[], eqs⟩).value
      s.Numbered name ∧ AllInRange s.equations := by
    apply State.eliminate_induct (motive := fun s => s.Numbered name ∧ AllInRange s.equations)
    · rintro s - ⟨hnumbered, h⟩
      exact ⟨hnumbered.next, State.inRange_next h⟩
    · exact ⟨rfl, h⟩
  exact State.fits_renumber hname (hrounds _).1 (hrounds _).2

section Nested

open Optimization

theorem words_nested : ∀ eq ∈ nested, eq.rhs.Words := by
  have helement (s : String) : (element s).Words :=
    Expr.words_of_args rfl (by simp [element, Expr.args])
  have hsymbol (s : String) : (Expr.sym s).Words := Expr.words_of_args rfl (by simp [Expr.args])
  have hnumber : (Expr.num 2).Words := by
    intro q hq
    obtain rfl := Expr.num.inj (hq.eq_of_args rfl)
    rfl
  have hinner : (Expr.add [element "v", element "w"]).Words :=
    Expr.words_of_args rfl (by simp [Expr.args, helement])
  have hproduct (s : String) : (Expr.mul [.sym s, .add [element "v", element "w"]]).Words :=
    Expr.words_of_args rfl (by simp [Expr.args, hsymbol, hinner])
  simp only [nested, List.forall_mem_cons, List.not_mem_nil, false_imp_iff, implies_true, and_true]
  refine ⟨?_, ?_, hproduct _⟩
  · exact Expr.words_of_args rfl (by simp [Expr.args, hsymbol, hproduct])
  · exact Expr.words_of_args rfl (by simp [Expr.args, hnumber, hproduct])

theorem allInRange_nested : AllInRange nested := by
  have hleaf : ∀ eq ∈ nested, eq.lhs.isOperation = false := by
    decide +kernel
  intro eq heq
  exact ⟨.inl (hleaf eq heq), .inr ⟨admissible_nested.canonical eq heq, words_nested eq heq⟩⟩

end Nested

end Temporaries

end Stencil
