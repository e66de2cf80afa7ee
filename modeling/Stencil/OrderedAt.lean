/-!
This module contains the laws of a linear order at one point. Over recursive types the laws are
proved by induction, point by point, and only then hold of the whole comparison.
-/

namespace Stencil

universe u v

/--
How the comparisons of `a` with `b` and of `b` with `c` determine that of `a` with `c`: two that
agree pass their answer on, and an equality passes on the other one.
-/
def OrderChain (ab bc ac : Ordering) : Prop :=
  (ab = .eq → ac = bc) ∧ (bc = .eq → ac = ab) ∧ (ab = bc → ac = ab)

namespace OrderChain

theorem of_ne {ab bc : Ordering} (hne : bc ≠ .eq) : OrderChain ab bc bc := by
  cases ab <;> cases bc <;> simp_all [OrderChain]

theorem of_ne' {ab bc : Ordering} (hne : ab ≠ .eq) : OrderChain ab bc ab := by
  cases ab <;> cases bc <;> simp_all [OrderChain]

theorem of_swap {ab ac : Ordering} (hne : ab ≠ .eq) : OrderChain ab ab.swap ac := by
  cases ab <;> simp_all [OrderChain]

theorem lex {ab bc ac ab' bc' ac' : Ordering} (h : OrderChain ab bc ac)
    (h' : OrderChain ab' bc' ac') :
    OrderChain (ab.then ab') (bc.then bc') (ac.then ac') := by
  cases ab <;> cases bc <;> cases ac <;> simp_all [OrderChain] <;> intro hbc <;> simp [← hbc]

theorem isLE {ab bc ac : Ordering} (h : OrderChain ab bc ac) (hab : ab.isLE) (hbc : bc.isLE) :
    ac.isLE := by
  cases ab <;> cases bc <;> simp_all [OrderChain]

end OrderChain

def cmpPair {β : Type u} {γ : Type v} (cmp₁ : β → β → Ordering) (cmp₂ : γ → γ → Ordering)
    (x y : β × γ) : Ordering :=
  (cmp₁ x.1 y.1).then (cmp₂ x.2 y.2)

/-- The laws of a linear order, as far as they speak of `a`. -/
structure OrderedAt {α : Type u} (cmp : α → α → Ordering) (a : α) : Prop where
  swap (b : α) : cmp b a = (cmp a b).swap
  chain (b c : α) : OrderChain (cmp a b) (cmp b c) (cmp a c)
  eq_iff (b : α) : cmp a b = .eq ↔ a = b

namespace OrderedAt

variable {α : Type u} {cmp : α → α → Ordering}

theorem transCmp (h : ∀ a, OrderedAt cmp a) : Std.TransCmp cmp where
  eq_swap {a b} := (h b).swap a
  isLE_trans {a b c} hab hbc := ((h a).chain b c).isLE hab hbc

theorem lawfulEqCmp (h : ∀ a, OrderedAt cmp a) : Std.LawfulEqCmp cmp where
  compare_self {a} := ((h a).eq_iff a).2 rfl
  eq_of_compare {a b} hab := ((h a).eq_iff b).1 hab

theorem of_transCmp [Std.TransCmp cmp] [Std.LawfulEqCmp cmp] (a : α) : OrderedAt cmp a where
  swap b := Std.OrientedCmp.eq_swap
  chain b c := by
    refine ⟨fun h => ?_, fun h => ?_, fun h => ?_⟩
    · rw [Std.LawfulEqCmp.eq_of_compare h]
    · rw [Std.LawfulEqCmp.eq_of_compare h]
    · cases hab : cmp a b with
      | lt => exact Std.TransCmp.lt_trans hab (h ▸ hab)
      | eq =>
        rw [Std.LawfulEqCmp.eq_of_compare hab]
        exact h ▸ hab
      | gt => exact Std.TransCmp.gt_trans hab (h ▸ hab)
  eq_iff b := Std.LawfulEqCmp.compare_eq_iff_eq

theorem pair {β : Type u} {γ : Type v} {cmp₁ : β → β → Ordering} {cmp₂ : γ → γ → Ordering}
    {x : β × γ} (h₁ : OrderedAt cmp₁ x.1) (h₂ : OrderedAt cmp₂ x.2) :
    OrderedAt (Stencil.cmpPair cmp₁ cmp₂) x where
  swap y := by simp only [Stencil.cmpPair, Ordering.swap_then, h₁.swap y.1, h₂.swap y.2]
  chain y z := (h₁.chain y.1 z.1).lex (h₂.chain y.2 z.2)
  eq_iff y := by
    simp only [Stencil.cmpPair, Ordering.then_eq_eq, h₁.eq_iff y.1, h₂.eq_iff y.2]
    exact Prod.ext_iff.symm

theorem on {β : Type v} {f : α → β} (inj : ∀ {a b}, f a = f b → a = b)
    {cmp : β → β → Ordering} {a : α} (h : OrderedAt cmp (f a)) :
    OrderedAt (fun a b => cmp (f a) (f b)) a where
  swap b := h.swap (f b)
  chain b c := h.chain (f b) (f c)
  eq_iff b := (h.eq_iff (f b)).trans ⟨inj, fun h => h ▸ rfl⟩

theorem compareLex {as : List α} (h : ∀ a ∈ as, OrderedAt cmp a) :
    OrderedAt (List.compareLex cmp) as where
  swap bs := by
    induction as generalizing bs with
    | nil => cases bs <;> simp [List.compareLex_nil_nil, List.compareLex_nil_cons,
        List.compareLex_cons_nil]
    | cons a as ih =>
      cases bs with
      | nil => simp [List.compareLex_nil_cons, List.compareLex_cons_nil]
      | cons b bs =>
        simp only [List.compareLex_cons_cons, Ordering.swap_then]
        rw [(h a (by simp)).swap b, ih (fun a ha => h a (by simp [ha]))]
  chain bs cs := by
    induction as generalizing bs cs with
    | nil =>
      cases bs <;> cases cs <;> simp [List.compareLex_nil_nil, List.compareLex_nil_cons,
        List.compareLex_cons_nil, OrderChain]
    | cons a as ih =>
      cases bs with
      | nil =>
        cases cs <;> simp [List.compareLex_nil_nil, List.compareLex_nil_cons,
          List.compareLex_cons_nil, OrderChain]
      | cons b bs =>
        cases cs with
        | nil =>
          simp only [List.compareLex_cons_nil]
          exact .of_ne (by simp)
        | cons c cs =>
          simp only [List.compareLex_cons_cons]
          exact ((h a (by simp)).chain b c).lex (ih (fun a ha => h a (by simp [ha])) bs cs)
  eq_iff bs := by
    induction as generalizing bs with
    | nil => cases bs <;> simp [List.compareLex_nil_nil, List.compareLex_nil_cons]
    | cons a as ih =>
      cases bs with
      | nil => simp [List.compareLex_cons_nil]
      | cons b bs =>
        simp only [List.compareLex_cons_cons, Ordering.then_eq_eq]
        simp [(h a (by simp)).eq_iff b, ih (fun a ha => h a (by simp [ha]))]

end OrderedAt

end Stencil
