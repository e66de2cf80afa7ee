import Stencil.Fraction
import Stencil.FunctionDecl

/-!
This module contains symbolic expressions, the order in which the terms of a sum and the factors of
a product are kept, and the fact that this order is linear.
-/

namespace Stencil

inductive Expr where
  | num (value : Rat)
  | sym (name : String)
  | access (function : FunctionDecl Expr) (indices : List Expr)
  | add (terms : List Expr)
  | mul (factors : List Expr)
  | pow (base : Expr) (exponent : Int)
  /-- The application of a function about which nothing is known. -/
  | call (name : String) (args : List Expr)

abbrev GridFunction := FunctionDecl Expr

namespace Expr

/-- Induction over an expression, its indices and the extents of the arrays in it. -/
@[induction_eliminator]
theorem induct {motive : Expr → Prop}
    (num : ∀ q, motive (num q))
    (sym : ∀ s, motive (sym s))
    (access : ∀ f is, (∀ e ∈ f.shape, motive e) → (∀ i ∈ is, motive i) → motive (access f is))
    (add : ∀ ts, (∀ t ∈ ts, motive t) → motive (add ts))
    (mul : ∀ fs, (∀ f ∈ fs, motive f) → motive (mul fs))
    (pow : ∀ b n, motive b → motive (pow b n))
    (call : ∀ s as, (∀ a ∈ as, motive a) → motive (call s as))
    (e : Expr) : motive e :=
  @Expr.rec motive (fun f => ∀ e ∈ f.shape, motive e) (fun es => ∀ e ∈ es, motive e)
    num sym access add mul (fun b n hb => pow b n hb) call (fun _ _ _ _ _ _ _ _ _ h => h)
    (by simp) (by simp_all) e

def rank : Expr → Nat
  | num _ => 0
  | sym _ => 1
  | access _ _ => 2
  | add _ => 3
  | mul _ => 4
  | pow _ _ => 5
  | call _ _ => 6

mutual

protected def cmp : Expr → Expr → Ordering
  | num p, num q => Fraction.cmp p q
  | sym s, sym t => compare s t
  | access f is, access g js => (cmpFunction f g).then (cmpList is js)
  | add ts, add us => cmpList ts us
  | mul fs, mul gs => cmpList fs gs
  | pow b m, pow c n => (Expr.cmp b c).then (compare m n)
  | call s as, call t bs => (compare s t).then (cmpList as bs)
  | a, b => compare a.rank b.rank

def cmpList : List Expr → List Expr → Ordering
  | [], [] => .eq
  | [], _ :: _ => .lt
  | _ :: _, [] => .gt
  | a :: as, b :: bs => (Expr.cmp a b).then (cmpList as bs)

def cmpFunction : GridFunction → GridFunction → Ordering
  | ⟨name, kind, dimensions, shape, halo, padding, grid, timeSize, elementType⟩, g =>
    let f : GridFunction :=
      ⟨name, kind, dimensions, shape, halo, padding, grid, timeSize, elementType⟩
    (FunctionDecl.cmpFront f g).then ((cmpList shape g.shape).then (FunctionDecl.cmpBack f g))

end

theorem cmpList_eq_compareLex (as bs : List Expr) :
    cmpList as bs = List.compareLex Expr.cmp as bs := by
  induction as generalizing bs with
  | nil => cases bs <;> simp [cmpList, List.compareLex_nil_nil, List.compareLex_nil_cons]
  | cons a as ih =>
    cases bs <;> simp [cmpList, List.compareLex_cons_nil, List.compareLex_cons_cons, ih]

theorem cmpFunction_eq_cmpWith (f g : GridFunction) :
    cmpFunction f g = FunctionDecl.cmpWith Expr.cmp f g := by
  cases f
  simp [cmpFunction, FunctionDecl.cmpWith, cmpList_eq_compareLex]

theorem cmp_eq_compare_rank {a b : Expr} (h : a.rank ≠ b.rank) :
    Expr.cmp a b = compare a.rank b.rank := by
  cases a <;> cases b <;> simp_all [Expr.cmp, rank]

theorem compare_rank_ne_eq {a b : Expr} (h : a.rank ≠ b.rank) : compare a.rank b.rank ≠ .eq :=
  fun heq => h (Std.LawfulEqOrd.eq_of_compare heq)

theorem orderedAt_of_rank {a : Expr}
    (hswap : ∀ b, a.rank = b.rank → Expr.cmp b a = (Expr.cmp a b).swap)
    (hchain : ∀ b c, a.rank = b.rank → b.rank = c.rank →
      OrderChain (Expr.cmp a b) (Expr.cmp b c) (Expr.cmp a c))
    (heq : ∀ b, a.rank = b.rank → (Expr.cmp a b = .eq ↔ a = b)) : OrderedAt Expr.cmp a where
  swap b := by
    by_cases h : a.rank = b.rank
    · exact hswap b h
    · rw [cmp_eq_compare_rank h, cmp_eq_compare_rank (Ne.symm h)]
      exact Std.OrientedCmp.eq_swap
  chain b c := by
    by_cases hab : a.rank = b.rank
    · by_cases hbc : b.rank = c.rank
      · exact hchain b c hab hbc
      · have hac : a.rank ≠ c.rank := fun h => hbc (hab.symm.trans h)
        rw [cmp_eq_compare_rank hbc, cmp_eq_compare_rank hac, hab]
        exact .of_ne (compare_rank_ne_eq hbc)
    · by_cases hbc : b.rank = c.rank
      · have hac : a.rank ≠ c.rank := fun h => hab (h.trans hbc.symm)
        rw [cmp_eq_compare_rank hab, cmp_eq_compare_rank hac, hbc]
        exact .of_ne' (compare_rank_ne_eq hac)
      · rw [cmp_eq_compare_rank hab, cmp_eq_compare_rank hbc]
        by_cases hac : a.rank = c.rank
        · have hswap : compare b.rank c.rank = (compare a.rank b.rank).swap := by
            rw [← hac]
            exact Std.OrientedCmp.eq_swap
          rw [hswap]
          exact .of_swap (compare_rank_ne_eq hab)
        · rw [cmp_eq_compare_rank hac]
          exact OrderedAt.chain (.of_transCmp a.rank) b.rank c.rank
  eq_iff b := by
    by_cases h : a.rank = b.rank
    · exact heq b h
    · rw [cmp_eq_compare_rank h]
      exact ⟨fun h' => absurd h' (compare_rank_ne_eq h), fun h' => absurd (congrArg rank h') h⟩

theorem cmp_orderedAt (e : Expr) : OrderedAt Expr.cmp e := by
  induction e with
  | num q =>
    refine orderedAt_of_rank (fun b h => ?_) (fun b c hab hbc => ?_) (fun b h => ?_)
    · cases b <;> simp [rank] at h
      exact (Fraction.cmp_orderedAt q).swap _
    · cases b <;> simp [rank] at hab
      cases c <;> simp [rank] at hbc
      exact (Fraction.cmp_orderedAt q).chain _ _
    · cases b <;> simp [rank] at h
      simpa [Expr.cmp] using (Fraction.cmp_orderedAt q).eq_iff _
  | sym s =>
    refine orderedAt_of_rank (fun b h => ?_) (fun b c hab hbc => ?_) (fun b h => ?_)
    · cases b <;> simp [rank] at h
      exact OrderedAt.swap (.of_transCmp s) _
    · cases b <;> simp [rank] at hab
      cases c <;> simp [rank] at hbc
      exact OrderedAt.chain (.of_transCmp s) _ _
    · cases b <;> simp [rank] at h
      simp [Expr.cmp]
  | access f is ihshape ihs =>
    have hf := FunctionDecl.cmpWith_orderedAt ihshape
    have his := OrderedAt.compareLex ihs
    refine orderedAt_of_rank (fun b h => ?_) (fun b c hab hbc => ?_) (fun b h => ?_)
    · cases b <;> simp [rank] at h
      simp only [Expr.cmp, cmpFunction_eq_cmpWith, cmpList_eq_compareLex, Ordering.swap_then,
        hf.swap, his.swap]
    · cases b <;> simp [rank] at hab
      cases c <;> simp [rank] at hbc
      simp only [Expr.cmp, cmpFunction_eq_cmpWith, cmpList_eq_compareLex]
      exact (hf.chain _ _).lex (his.chain _ _)
    · cases b <;> simp [rank] at h
      simp only [Expr.cmp, cmpFunction_eq_cmpWith, cmpList_eq_compareLex, Ordering.then_eq_eq,
        hf.eq_iff, his.eq_iff, access.injEq]
  | add ts ih =>
    have hts := OrderedAt.compareLex ih
    refine orderedAt_of_rank (fun b h => ?_) (fun b c hab hbc => ?_) (fun b h => ?_)
    · cases b <;> simp [rank] at h
      simp only [Expr.cmp, cmpList_eq_compareLex, hts.swap]
    · cases b <;> simp [rank] at hab
      cases c <;> simp [rank] at hbc
      simp only [Expr.cmp, cmpList_eq_compareLex]
      exact hts.chain _ _
    · cases b <;> simp [rank] at h
      simp only [Expr.cmp, cmpList_eq_compareLex, hts.eq_iff, add.injEq]
  | mul fs ih =>
    have hfs := OrderedAt.compareLex ih
    refine orderedAt_of_rank (fun b h => ?_) (fun b c hab hbc => ?_) (fun b h => ?_)
    · cases b <;> simp [rank] at h
      simp only [Expr.cmp, cmpList_eq_compareLex, hfs.swap]
    · cases b <;> simp [rank] at hab
      cases c <;> simp [rank] at hbc
      simp only [Expr.cmp, cmpList_eq_compareLex]
      exact hfs.chain _ _
    · cases b <;> simp [rank] at h
      simp only [Expr.cmp, cmpList_eq_compareLex, hfs.eq_iff, mul.injEq]
  | pow b n ih =>
    have hn : OrderedAt compare n := .of_transCmp n
    refine orderedAt_of_rank (fun b h => ?_) (fun b c hab hbc => ?_) (fun b h => ?_)
    · cases b <;> simp [rank] at h
      simp only [Expr.cmp, Ordering.swap_then, ih.swap, hn.swap]
    · cases b <;> simp [rank] at hab
      cases c <;> simp [rank] at hbc
      simp only [Expr.cmp]
      exact (ih.chain _ _).lex (hn.chain _ _)
    · cases b <;> simp [rank] at h
      simp only [Expr.cmp, Ordering.then_eq_eq, ih.eq_iff, hn.eq_iff, pow.injEq]
  | call s as ih =>
    have hs : OrderedAt compare s := .of_transCmp s
    have has := OrderedAt.compareLex ih
    refine orderedAt_of_rank (fun b h => ?_) (fun b c hab hbc => ?_) (fun b h => ?_)
    · cases b <;> simp [rank] at h
      simp only [Expr.cmp, cmpList_eq_compareLex, Ordering.swap_then, hs.swap, has.swap]
    · cases b <;> simp [rank] at hab
      cases c <;> simp [rank] at hbc
      simp only [Expr.cmp, cmpList_eq_compareLex]
      exact (hs.chain _ _).lex (has.chain _ _)
    · cases b <;> simp [rank] at h
      simp only [Expr.cmp, cmpList_eq_compareLex, Ordering.then_eq_eq, hs.eq_iff, has.eq_iff,
        call.injEq]

instance : Ord Expr := ⟨Expr.cmp⟩

instance : Std.TransOrd Expr := OrderedAt.transCmp cmp_orderedAt

instance : Std.LawfulEqOrd Expr := OrderedAt.lawfulEqCmp cmp_orderedAt

instance : DecidableEq Expr := fun a b =>
  decidable_of_iff (Expr.cmp a b = .eq) ((cmp_orderedAt a).eq_iff b)

end Expr

namespace GridFunction

instance : Ord GridFunction := ⟨Expr.cmpFunction⟩

theorem cmp_orderedAt (f : GridFunction) : OrderedAt Expr.cmpFunction f := by
  have hcmp : Expr.cmpFunction = FunctionDecl.cmpWith Expr.cmp :=
    funext fun f => funext fun g => Expr.cmpFunction_eq_cmpWith f g
  rw [hcmp]
  exact FunctionDecl.cmpWith_orderedAt fun e _ => Expr.cmp_orderedAt e

instance : Std.TransOrd GridFunction := OrderedAt.transCmp cmp_orderedAt

instance : Std.LawfulEqOrd GridFunction := OrderedAt.lawfulEqCmp cmp_orderedAt

end GridFunction

end Stencil
