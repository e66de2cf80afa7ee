import Stencil.Proofs.Expr.Compose
import Stencil.Temporaries.Promote

/-!
This module contains the fact that the promotion of scalars to temporary arrays is a renaming. An
array element comes to stand wherever a scalar stood that some equation computes, before or after
this equation, and nothing else changes but the order of terms and factors. So the scalars can be
put back, unless an equation had one of these elements already.
-/

namespace Stencil

namespace Temporaries

def renameIn (σ : Expr → Option Expr) (eq : Equation) : Checked Equation := do
  return ⟨(σ eq.lhs).getD eq.lhs, ← eq.rhs.replace σ, eq.isIncrement⟩

theorem fits_renameIn {σ : Expr → Option Expr} (hσ : Expr.Atomic σ) {eq : Equation}
    (hcanonical : eq.rhs.Canonical) (hwords : eq.rhs.Words) : (renameIn σ eq).fits = true := by
  rw [renameIn, Checked.fits_bind, hσ.fits_replace hcanonical hwords]
  rfl

def scalars (eqs : List Equation) : List String := eqs.filterMap fun eq => eq.lhs.toSymbol?

theorem mem_scalars {eqs : List Equation} {s : String} :
    s ∈ scalars eqs ↔ ∃ eq ∈ eqs, eq.lhs = .sym s := by
  have hsymbol (e : Expr) : e.toSymbol? = some s ↔ e = .sym s := by
    cases e <;> simp [Expr.toSymbol?]
  simp only [scalars, List.mem_filterMap, hsymbol]

section Renaming

variable (shape : List Expr) (indices : List Dimension) (onStack : Bool) (names : List String)

def toElement : Expr → Option Expr :=
  (OrdMap.ofList (names.map fun s => (Expr.sym s, element shape indices onStack s))).find?

def toScalar : Expr → Option Expr :=
  (OrdMap.ofList (names.map fun s => (element shape indices onStack s, Expr.sym s))).find?

def demote (eqs : List Equation) : Checked (List Equation) :=
  eqs.mapM (renameIn (toScalar shape indices onStack names))

theorem promote_eq_mapM (eqs : List Equation) :
    promote shape indices onStack eqs =
      eqs.mapM (renameIn (toElement shape indices onStack (scalars eqs))) := rfl

variable {shape indices onStack names}

theorem element_inj {s t : String}
    (h : element shape indices onStack s = element shape indices onStack t) : s = t :=
  congrArg FunctionDecl.name (Expr.access.inj h).1

theorem toElement_eq_some_iff {a b : Expr} :
    toElement shape indices onStack names a = some b ↔
      ∃ s ∈ names, a = .sym s ∧ b = element shape indices onStack s :=
  OrdMap.find?_ofList_map_iff fun _ _ => Expr.sym.inj

theorem toScalar_eq_some_iff {a b : Expr} :
    toScalar shape indices onStack names a = some b ↔
      ∃ s ∈ names, a = element shape indices onStack s ∧ b = .sym s :=
  OrdMap.find?_ofList_map_iff fun _ _ => element_inj

theorem canonical_element (s : String) : (element shape indices onStack s).Canonical := by
  apply Expr.Canonical.access
  intro i hi
  obtain ⟨d, -, rfl⟩ := List.mem_map.1 hi
  exact .sym d.name

theorem atomic_toElement : Expr.Atomic (toElement shape indices onStack names) := by
  intro a b hab
  obtain ⟨s, -, -, rfl⟩ := toElement_eq_some_iff.1 hab
  exact ⟨rfl, canonical_element s⟩

theorem naming_toScalar : Expr.Naming (toScalar shape indices onStack names) := by
  intro a b hab
  obtain ⟨s, -, rfl, rfl⟩ := toScalar_eq_some_iff.1 hab
  exact ⟨rfl, s, rfl⟩

theorem toScalar_of_toElement {a b : Expr} (h : toElement shape indices onStack names a = some b) :
    toScalar shape indices onStack names b = some a := by
  obtain ⟨s, hs, rfl, rfl⟩ := toElement_eq_some_iff.1 h
  exact toScalar_eq_some_iff.2 ⟨s, hs, rfl, rfl⟩

theorem toScalar_eq_none {e : Expr} (h : ∀ s ∈ names, element shape indices onStack s ≠ e) :
    toScalar shape indices onStack names e = none := by
  cases hcase : toScalar shape indices onStack names e with
  | none => rfl
  | some b =>
    obtain ⟨s, hs, rfl, -⟩ := toScalar_eq_some_iff.1 hcase
    exact absurd rfl (h s hs)

theorem notMem_valueSymbols_toElement {s : String} (hs : s ∈ names) (e : Expr) :
    s ∉ (e.replace (toElement shape indices onStack names)).value.valueSymbols := by
  intro hmem
  rcases Expr.within_replace rfl (Expr.mem_valueSymbols.1 hmem) with ⟨-, hnone⟩ | ⟨a, b, -, hab, hb⟩
  · rw [toElement_eq_some_iff.2 ⟨s, hs, rfl, rfl⟩] at hnone
    cases hnone
  · obtain ⟨t, -, -, rfl⟩ := toElement_eq_some_iff.1 hab
    cases hb.eq_of_args rfl

theorem replace_toScalar {e : Expr} (he : e.Canonical)
    (hfresh : ∀ s ∈ names, ¬(element shape indices onStack s).Within e) :
    ((e.replace (toElement shape indices onStack names)).value.replace
      (toScalar shape indices onStack names)).value = e := by
  apply atomic_toElement.replace_restore (fun _ _ => toScalar_of_toElement) _ he
  · intro x _ hx _
    apply toScalar_eq_none
    rintro s hs rfl
    exact hfresh s hs hx
  · intro a b hab
    obtain ⟨s, -, rfl, -⟩ := toScalar_eq_some_iff.1 hab
    rfl

theorem getD_toScalar {e : Expr} (hfresh : ∀ s ∈ names, element shape indices onStack s ≠ e) :
    (toScalar shape indices onStack names
      ((toElement shape indices onStack names e).getD e)).getD
        ((toElement shape indices onStack names e).getD e) = e := by
  cases hcase : toElement shape indices onStack names e with
  | none => rw [Option.getD_none, toScalar_eq_none hfresh, Option.getD_none]
  | some b => rw [Option.getD_some, toScalar_of_toElement hcase, Option.getD_some]

theorem renameIn_toScalar {eq : Equation} (hcanonical : eq.rhs.Canonical)
    (hfresh : ∀ s ∈ names, ¬(element shape indices onStack s).Within eq.lhs ∧
      ¬(element shape indices onStack s).Within eq.rhs) :
    (renameIn (toScalar shape indices onStack names)
      (renameIn (toElement shape indices onStack names) eq).value).value = eq := by
  have hlhs := getD_toScalar fun s hs heq => (hfresh s hs).1 (heq ▸ .self)
  have hrhs := replace_toScalar hcanonical fun s hs => (hfresh s hs).2
  exact congrArg₂ (Equation.mk · · eq.isIncrement) hlhs hrhs

end Renaming

theorem isScalar_renameIn {shape : List Expr} {indices : List Dimension} {onStack : Bool}
    {eqs : List Equation} {eq : Equation} (heq : eq ∈ eqs) :
    (renameIn (toElement shape indices onStack (scalars eqs)) eq).value.isScalar = false := by
  change ((toElement shape indices onStack (scalars eqs) eq.lhs).getD eq.lhs).toSymbol?.isSome =
    false
  cases hcase : toElement shape indices onStack (scalars eqs) eq.lhs with
  | some b =>
    obtain ⟨s, -, -, rfl⟩ := toElement_eq_some_iff.1 hcase
    rfl
  | none =>
    cases hlhs : eq.lhs with
    | sym s =>
      have hs := mem_scalars.2 ⟨eq, heq, hlhs⟩
      rw [hlhs, toElement_eq_some_iff.2 ⟨s, hs, rfl, rfl⟩] at hcase
      cases hcase
    | _ => rfl

/--
The promotion of scalars leaves none of the scalars that equations compute, neither on a left-hand
side nor in a value. If no equation has one of the elements that they are promoted to, then putting
the scalars back gives exactly the equations there were in the beginning, whatever their order is
and however often a scalar is computed. Numbers that fit keep to it on both ways.
-/
theorem promote_reversible {shape : List Expr} {indices : List Dimension} {onStack : Bool}
    {eqs : List Equation} (hcanonical : ∀ eq ∈ eqs, eq.rhs.Canonical)
    (hfresh : ∀ eq ∈ eqs, ∀ s ∈ scalars eqs, ¬(element shape indices onStack s).Within eq.lhs ∧
      ¬(element shape indices onStack s).Within eq.rhs) :
    (∀ eq ∈ (promote shape indices onStack eqs).value, eq.isScalar = false ∧
        ∀ s ∈ scalars eqs, s ∉ eq.rhs.valueSymbols) ∧
      (demote shape indices onStack (scalars eqs) (promote shape indices onStack eqs).value).value =
        eqs ∧
      ((∀ eq ∈ eqs, eq.rhs.Words) → (promote shape indices onStack eqs).fits = true ∧
        (demote shape indices onStack (scalars eqs)
          (promote shape indices onStack eqs).value).fits = true) := by
  rw [promote_eq_mapM, demote, Checked.value_mapM, Checked.value_mapM, List.map_map]
  refine ⟨?_, ?_, fun hwords => ?_⟩
  · intro eq' heq'
    obtain ⟨eq, heq, rfl⟩ := List.mem_map.1 heq'
    exact ⟨isScalar_renameIn heq, fun s hs => notMem_valueSymbols_toElement hs eq.rhs⟩
  · have hrestored (eq : Equation) (heq : eq ∈ eqs) :=
      renameIn_toScalar (hcanonical eq heq) (hfresh eq heq)
    exact (List.map_congr_left hrestored).trans (List.map_id' eqs)
  · rw [Checked.fits_mapM, Checked.fits_mapM, List.forall_mem_map]
    constructor
    · intro eq heq
      exact fits_renameIn atomic_toElement (hcanonical eq heq) (hwords eq heq)
    · intro eq heq
      apply fits_renameIn naming_toScalar.atomic
      · exact (hcanonical eq heq).replace fun a b hab => (atomic_toElement a b hab).2
      · exact atomic_toElement.words_replace (hcanonical eq heq) (hwords eq heq)

section Redefined

def cell (name : String) : Expr :=
  .access (.declare name .dense [.space "x"] [.num 8]) [.sym "x"]

/--
`u[x] = 2 * r; r = s + a[x]; r = r + a[x]; s += f(r)`, in which both scalars are used before they
are computed, and one is computed twice. As an array element `r` comes after `a[x]`.
-/
def outOfOrder : List Equation :=
  [⟨cell "u", .mul [.num 2, .sym "r"], false⟩,
    ⟨.sym "r", .add [.sym "s", cell "a"], false⟩,
    ⟨.sym "r", .add [.sym "r", cell "a"], false⟩,
    ⟨.sym "s", .call "f" [.sym "r"], true⟩]

theorem canonical_outOfOrder : ∀ eq ∈ outOfOrder, eq.rhs.Canonical := by
  have hcell : (cell "a").Canonical := .access _ (by simp [Expr.Canonical.sym])
  simp only [outOfOrder, List.forall_mem_cons, List.not_mem_nil, false_imp_iff, implies_true,
    and_true]
  refine ⟨?_, ?_, ?_, .call "f" (by simp [Expr.Canonical.sym])⟩
  · refine .mul (by simp [Expr.Canonical.sym, Expr.Canonical.num]) ⟨?_, ?_, ?_, ?_, ?_⟩ <;>
      decide +kernel
  · refine .add (by simp [Expr.Canonical.sym, hcell]) ⟨?_, ?_, ?_, ?_, ?_⟩ <;> decide +kernel
  · refine .add (by simp [Expr.Canonical.sym, hcell]) ⟨?_, ?_, ?_, ?_, ?_⟩ <;> decide +kernel

theorem words_outOfOrder : ∀ eq ∈ outOfOrder, eq.rhs.Words := by
  have hcell : (cell "a").Words := Expr.words_of_args rfl (by simp [cell, Expr.args])
  have hsymbol (s : String) : (Expr.sym s).Words := Expr.words_of_args rfl (by simp [Expr.args])
  have hnumber : (Expr.num 2).Words := by
    intro q hq
    obtain rfl := Expr.num.inj (hq.eq_of_args rfl)
    rfl
  simp only [outOfOrder, List.forall_mem_cons, List.not_mem_nil, false_imp_iff, implies_true,
    and_true]
  refine ⟨?_, ?_, ?_, ?_⟩
  · exact Expr.words_of_args rfl (by simp [Expr.args, hnumber, hsymbol])
  · exact Expr.words_of_args rfl (by simp [Expr.args, hsymbol, hcell])
  · exact Expr.words_of_args rfl (by simp [Expr.args, hsymbol, hcell])
  · exact Expr.words_of_args rfl (by simp [Expr.args, hsymbol])

theorem promote_reversible_outOfOrder :
    let promoted := promote [.num 8] [.space "x"] true outOfOrder
    let r := element [.num 8] [.space "x"] true "r"
    promoted.fits = true ∧ ⟨r, .add [cell "a", r], false⟩ ∈ promoted.value ∧
      (∀ eq ∈ promoted.value, eq.isScalar = false ∧ "r" ∉ eq.rhs.valueSymbols) ∧
      demote [.num 8] [.space "x"] true ["r", "r", "s"] promoted.value = pure outOfOrder := by
  have hreferences : ∀ eq ∈ outOfOrder, ∀ s ∈ scalars outOfOrder,
      let r : Reference := ⟨.declare s (.array true) [.space "x"] [.num 8], [.sym "x"]⟩
      r ∉ eq.lhs.valueReferences ∧ r ∉ eq.rhs.valueReferences := by
    decide +kernel
  have hfresh (eq : Equation) (heq : eq ∈ outOfOrder) (s : String) (hs : s ∈ scalars outOfOrder) :=
    (hreferences eq heq s hs).imp (mt Expr.mem_valueReferences.2) (mt Expr.mem_valueReferences.2)
  obtain ⟨hscalars, hvalue, hfits⟩ := promote_reversible canonical_outOfOrder hfresh
  obtain ⟨hpromote, hdemote⟩ := hfits words_outOfOrder
  refine ⟨hpromote, by decide +kernel, fun eq heq => ?_, Checked.eq_pure_iff.2 ⟨hdemote, hvalue⟩⟩
  exact ⟨(hscalars eq heq).1, (hscalars eq heq).2 "r" (by decide +kernel)⟩

end Redefined

end Temporaries

end Stencil
