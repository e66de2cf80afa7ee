import Mathlib.Data.List.Flatten
import Mathlib.Data.List.Nodup
import Stencil.Cluster
import Stencil.Proofs.Expr.Within
import Stencil.Proofs.Points

/-!
This module contains the execution of clusters on a store of array elements. Two executions of the
same instances of equations have the same effect if none of them turns a conflict around.
-/

namespace Stencil

def Reference.cell (p : Point) (r : Reference) : GridFunction × List Int :=
  (r.function, OffsetVector.cell p.extend r.function.dimensions r.indices)

abbrev Instance := Equation × Point

/-- Two instances touch the same array element, and one of them writes it. -/
def Instance.Conflicts (i j : Instance) : Prop :=
  ∃ r ∈ i.1.references, ∃ r' ∈ j.1.references,
    (i.1.write? = some r ∨ j.1.write? = some r') ∧ r.cell i.2 = r'.cell j.2

abbrev Store (K : Type) := GridFunction × List Int → K

structure Environment (K : Type) where
  /-- The values of scalars, which may be different at each point. -/
  scalar : Point → String → K
  call : String → List K → K
  pole : Int → K

variable {K : Type} [Field K] [DecidableEq K]

def Environment.interpretation (env : Environment K) (σ : Store K) (p : Point) :
    Interpretation K where
  element f is _ := σ (Reference.cell p ⟨f, is⟩)
  call s _ vs := env.call s vs
  pole := env.pole

variable (env : Environment K)

namespace Equation

def result (σ : Store K) (p : Point) (w : Reference) (eq : Equation) : K :=
  let value := eq.rhs.denote (env.interpretation σ p) (env.scalar p)
  if eq.isIncrement then σ (w.cell p) + value else value

theorem result_congr {eq : Equation} {w : Reference} (hw : eq.write? = some w) {σ τ : Store K}
    {p : Point} (h : ∀ r ∈ eq.references, σ (r.cell p) = τ (r.cell p)) :
    eq.result env σ p w = eq.result env τ p w := by
  have hwritten : w ∈ eq.references := List.mem_append_left _ (by simp [hw])
  have hvalue : eq.rhs.denote (env.interpretation σ p) (env.scalar p) =
      eq.rhs.denote (env.interpretation τ p) (env.scalar p) := by
    apply Expr.denote_congr (I := env.interpretation σ p) (J := env.interpretation τ p) rfl rfl _
      fun _ _ => rfl
    intro r hr
    have hmem : r ∈ eq.references := List.mem_append_right _ (List.mem_append_left _ hr)
    exact h r hmem
  unfold result
  rw [hvalue, h w hwritten]

end Equation

def execute (σ : Store K) (i : Instance) : Store K :=
  match i.1.write? with
  | some w => Function.update σ (w.cell i.2) (i.1.result env σ i.2 w)
  | none => σ

theorem execute_comm {i j : Instance} (h : ¬ i.Conflicts j) (σ : Store K) :
    execute env (execute env σ i) j = execute env (execute env σ j) i := by
  unfold execute
  cases hi : i.1.write? with
  | none => rfl
  | some w =>
    cases hj : j.1.write? with
    | none => rfl
    | some w' =>
      have hw : w ∈ i.1.references := List.mem_append_left _ (by simp [hi])
      have hw' : w' ∈ j.1.references := List.mem_append_left _ (by simp [hj])
      have hne : w.cell i.2 ≠ w'.cell j.2 := fun heq => h ⟨w, hw, w', hw', .inl hi, heq⟩
      have hresult (x : K) : j.1.result env (Function.update σ (w.cell i.2) x) j.2 w' =
          j.1.result env σ j.2 w' := by
        apply Equation.result_congr env hj
        intro r hr
        rw [Function.update_of_ne]
        exact fun heq => h ⟨w, hw, r, hr, .inl hi, heq.symm⟩
      have hresult' (x : K) : i.1.result env (Function.update σ (w'.cell j.2) x) i.2 w =
          i.1.result env σ i.2 w := by
        apply Equation.result_congr env hi
        intro r hr
        rw [Function.update_of_ne]
        exact fun heq => h ⟨r, hr, w', hw', .inr hj, heq⟩
      dsimp only
      rw [hresult, hresult', Function.update_comm hne]

section Orders

variable {α β : Type} {step : β → α → β} {conflict : α → α → Prop}

theorem foldl_append_cons
    (hcomm : ∀ i j, ¬ conflict i j → ∀ b, step (step b i) j = step (step b j) i)
    {i : α} {as : List α} (has : ∀ a ∈ as, ¬ conflict i a) (bs : List α) (b : β) :
    (as ++ i :: bs).foldl step b = (i :: (as ++ bs)).foldl step b := by
  induction as generalizing b with
  | nil => rfl
  | cons a as ih =>
    rw [List.forall_mem_cons] at has
    rw [List.cons_append, List.foldl_cons, ih has.2, List.cons_append, List.foldl_cons,
      List.foldl_cons, List.foldl_cons, hcomm i a has.1]

/-- Two orders of the same steps have the same effect if no conflict is turned around. -/
theorem foldl_eq_of_order
    (hcomm : ∀ i j, ¬ conflict i j → ∀ b, step (step b i) j = step (step b j) i)
    {as bs : List α} (hperm : as.Perm bs)
    (horder : bs.Pairwise fun j i => ¬ ([i, j].Sublist as ∧ conflict i j)) (b : β) :
    as.foldl step b = bs.foldl step b := by
  induction as generalizing bs b with
  | nil => rw [List.nil_perm.1 hperm]
  | cons a as ih =>
    -- What comes before the first step in the other order is in no conflict with it.
    obtain ⟨cs, ds, rfl⟩ := List.append_of_mem (hperm.subset (List.mem_cons_self ..))
    have hrest : as.Perm (cs ++ ds) := (hperm.trans List.perm_middle).cons_inv
    have hfree : ∀ c ∈ cs, ¬ conflict a c := by
      intro c hc hconflict
      have hmem : c ∈ as := hrest.symm.subset (List.mem_append_left _ hc)
      rw [List.pairwise_append] at horder
      apply horder.2.2 c hc a (List.mem_cons_self ..)
      exact ⟨(List.singleton_sublist.2 hmem).cons_cons a, hconflict⟩
    rw [foldl_append_cons hcomm hfree, List.foldl_cons, List.foldl_cons]
    apply ih hrest
    have hsublist : (cs ++ ds).Sublist (cs ++ a :: ds) :=
      (List.Sublist.refl cs).append (List.sublist_cons_self a ds)
    apply (horder.sublist hsublist).imp
    rintro j i hnot ⟨hbefore, hconflict⟩
    exact hnot ⟨hbefore.cons a, hconflict⟩

end Orders

section Pairs

variable {α β : Type} {a b : α} {l : List α}

theorem pair_sublist_flatMap {f : β → List α} {l : List β} :
    [a, b].Sublist (l.flatMap f) ↔
      (∃ x ∈ l, [a, b].Sublist (f x)) ∨ ∃ x y, [x, y].Sublist l ∧ a ∈ f x ∧ b ∈ f y := by
  constructor
  · intro h
    apply Classical.byContradiction
    intro hnot
    rw [not_or] at hnot
    have hpairwise : (l.flatMap f).Pairwise fun x y => ¬ (x = a ∧ y = b) := by
      rw [List.pairwise_flatMap]
      constructor
      · intro x hx
        rw [List.pairwise_iff_forall_sublist]
        rintro _ _ hpair ⟨rfl, rfl⟩
        exact hnot.1 ⟨x, hx, hpair⟩
      · rw [List.pairwise_iff_forall_sublist]
        rintro x y hxy _ ha _ hb ⟨rfl, rfl⟩
        exact hnot.2 ⟨x, y, hxy, ha, hb⟩
    exact List.pairwise_iff_forall_sublist.1 hpairwise h ⟨rfl, rfl⟩
  · rintro (⟨x, hx, h⟩ | ⟨x, y, hxy, ha, hb⟩)
    · have hpart := (List.singleton_sublist.2 hx).flatMap f
      rw [List.flatMap_singleton] at hpart
      exact h.trans hpart
    · have hparts := hxy.flatMap f
      rw [List.flatMap_cons, List.flatMap_singleton] at hparts
      exact ((List.singleton_sublist.2 ha).append (List.singleton_sublist.2 hb)).trans hparts

theorem not_pair_sublist_swap (hnodup : l.Nodup) (h : [a, b].Sublist l) : ¬ [b, a].Sublist l := by
  intro hswap
  induction l with
  | nil => cases h
  | cons x l ih =>
    rw [List.nodup_cons] at hnodup
    -- If one of both pairs begins with `x`, the other one shows that `x` also occurs in `l`.
    cases h with
    | cons _ h =>
      cases hswap with
      | cons _ hswap => exact ih hnodup.2 h hswap
      | cons_cons _ _ => exact hnodup.1 (h.subset (by simp))
    | cons_cons _ h =>
      cases hswap with
      | cons _ hswap => exact hnodup.1 (hswap.subset (by simp))
      | cons_cons _ _ => exact hnodup.1 (h.subset (by simp))

theorem pair_sublist_of_sublist {part : List α} (hnodup : l.Nodup) (hpart : part.Sublist l)
    (h : [a, b].Sublist l) (ha : a ∈ part) (hb : b ∈ part) : [a, b].Sublist part := by
  obtain ⟨as, bs, rfl⟩ := List.append_of_mem ha
  rw [List.mem_append, List.mem_cons] at hb
  rcases hb with hb | rfl | hb
  · have hswap : [b, a].Sublist (as ++ a :: bs) :=
      (List.singleton_sublist.2 hb).append (List.singleton_sublist.2 (List.mem_cons_self ..))
    cases not_pair_sublist_swap hnodup h (hswap.trans hpart)
  · cases List.nodup_iff_sublist.1 hnodup b h
  · exact ((List.singleton_sublist.2 hb).cons_cons a).trans (List.sublist_append_right as _)

end Pairs

namespace Cluster

def instances (box : Dimension → Bounds) (c : Cluster) : List Instance :=
  (c.iterationSpace.points box).flatMap fun p => c.equations.map fun e => (e, p)

section Instances

variable {box : Dimension → Bounds} {c : Cluster} {e e' : Equation} {p q : Point}

theorem mem_instances :
    (e, p) ∈ c.instances box ↔ e ∈ c.equations ∧ p ∈ c.iterationSpace.points box := by
  unfold instances
  simp [and_comm]

theorem pair_sublist_instances :
    [(e, p), (e', q)].Sublist (c.instances box) ↔
      [e, e'].Sublist c.equations ∧ p = q ∧ p ∈ c.iterationSpace.points box ∨
        e ∈ c.equations ∧ e' ∈ c.equations ∧ [p, q].Sublist (c.iterationSpace.points box) := by
  unfold instances
  rw [pair_sublist_flatMap]
  constructor
  · rintro (⟨x, hx, h⟩ | ⟨x, y, hxy, hfirst, hsecond⟩)
    · obtain ⟨es, hes, heq⟩ := List.sublist_map_iff.1 h
      have hequations : [e, e'] = es := by
        simpa [Function.comp_def] using congrArg (List.map Prod.fst) heq
      subst hequations
      simp only [List.map_cons, List.cons.injEq, Prod.mk.injEq, true_and] at heq
      obtain ⟨rfl, rfl, -⟩ := heq
      exact .inl ⟨hes, rfl, hx⟩
    · obtain ⟨_, he, heq⟩ := List.mem_map.1 hfirst
      obtain ⟨_, he', heq'⟩ := List.mem_map.1 hsecond
      obtain ⟨rfl, rfl⟩ := Prod.mk.inj heq
      obtain ⟨rfl, rfl⟩ := Prod.mk.inj heq'
      exact .inr ⟨he, he', hxy⟩
  · rintro (⟨hpair, rfl, hp⟩ | ⟨he, he', hpair⟩)
    · exact .inl ⟨p, hp, hpair.map (·, p)⟩
    · exact .inr ⟨p, q, hpair, List.mem_map_of_mem he, List.mem_map_of_mem he'⟩

end Instances

def schedule (box : Dimension → Bounds) (cs : List Cluster) : List Instance :=
  cs.flatMap (instances box)

/-- Executes clusters one after the other, each one as a single nest of loops. -/
def run (box : Dimension → Bounds) (cs : List Cluster) (σ : Store K) : Store K :=
  (schedule box cs).foldl (execute env) σ

/-- Some conflict is resolved in one order by `cs` and in the other order by `ds`. -/
def TurnAround (box : Dimension → Bounds) (cs ds : List Cluster) : Prop :=
  ∃ i j : Instance, i.Conflicts j ∧ [i, j].Sublist (schedule box cs) ∧
    [j, i].Sublist (schedule box ds)

theorem run_eq_of_not_turnAround {box : Dimension → Bounds} {cs ds : List Cluster}
    (hperm : (schedule box cs).Perm (schedule box ds)) (h : ¬ TurnAround box cs ds)
    (σ : Store K) : run env box cs σ = run env box ds σ := by
  unfold run
  refine @foldl_eq_of_order _ _ _ Instance.Conflicts ?_ _ _ hperm ?_ σ
  · intro i j hnot τ
    exact execute_comm env hnot τ
  · rw [List.pairwise_iff_forall_sublist]
    rintro j i hds ⟨hcs, hconflict⟩
    exact h ⟨i, j, hconflict, hcs, hds⟩

end Cluster

end Stencil
