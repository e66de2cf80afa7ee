import Stencil.Access
import Stencil.Proofs.Expr.Canonical
import Stencil.Proofs.OffsetVector

/-!
This module contains the order of accesses in the iteration. Two accesses that go together have an
order whose opposite is the order of the swapped accesses, and they are at the same point exactly if
they are equal in it.
-/

namespace Stencil

open OffsetVector (sign?)

theorem Expr.Reversible.symm {a b : Expr} (h : Reversible a b) : Reversible b a := by
  unfold Reversible at h ⊢
  rw [h, Option.map_map]
  simp

theorem OffsetVector.sign?_eq_eq_iff {v : OffsetVector} :
    sign? v = some .eq ↔ v.isZero = true := by
  unfold isZero
  induction v with
  | nil => simp
  | cons e es ih =>
    rw [sign?_cons, List.all_cons, Bool.and_eq_true, ← ih]
    cases e.toInt? with
    | none => simp
    | some i =>
      cases sign? es with
      | none => simp
      | some o => simp [Ordering.then_eq_eq]

theorem Access.checkDimensions_eq_ok {a b : Access} {u : Unit} :
    (a.checkDimensions b).run.value = .ok u ↔ a.dimensions = b.dimensions := by
  unfold checkDimensions
  split
  · next h => simp [h]
  · next h => simp [h]

namespace TimedAccess

section Fields

variable (space : IterationSpace) (t : Nat) (isIncrement : Bool) (mode : AccessMode) (r : Reference)

@[simp]
theorem function_ofReference : (ofReference space t isIncrement mode r).function = r.function := rfl

@[simp]
theorem indices_ofReference : (ofReference space t isIncrement mode r).indices = r.indices := rfl

@[simp]
theorem directions_ofReference :
    (ofReference space t isIncrement mode r).directions =
      r.function.dimensions.map space.direction := rfl

end Fields

structure Aligned (a b : TimedAccess) : Prop where
  dimensions : a.dimensions = b.dimensions
  directions : a.directions = b.directions
  rank : a.indices.length = b.indices.length

theorem Aligned.symm {a b : TimedAccess} (h : Aligned a b) : Aligned b a :=
  ⟨h.dimensions.symm, h.directions.symm, h.rank.symm⟩

theorem check_eq_ok {a b : TimedAccess} {u : Unit} :
    (a.check b).run.value = .ok u ↔ Aligned a b := by
  unfold check
  rw [Analysis.value_bind_eq_ok]
  simp only [Access.checkDimensions_eq_ok]
  constructor
  · rintro ⟨-, hdimensions, hcheck⟩
    split at hcheck
    · next hboth => exact ⟨hdimensions, hboth.1, hboth.2⟩
    · cases hcheck
  · rintro ⟨hdimensions, hdirections, hrank⟩
    refine ⟨(), hdimensions, ?_⟩
    rw [if_pos ⟨hdirections, hrank⟩]
    rfl

/-- The differences of the indices of two accesses, in the directions of their loops. -/
def offsets : List Direction → List Expr → List Expr → OffsetVector
  | d :: ds, x :: xs, y :: ys => (difference x y d).value :: offsets ds xs ys
  | _, _, _ => []

theorem offsets_eq_map (ds : List Direction) (xs ys : List Expr) :
    offsets ds xs ys = ((xs.zip ys).zip ds).map fun e => (difference e.1.1 e.1.2 e.2).value := by
  induction ds, xs, ys using offsets.induct with
  | case1 d ds x xs y ys ih => simp [offsets, ih]
  | case2 ds xs ys h =>
    cases ds with
    | nil => simp [offsets]
    | cons d ds =>
      cases xs with
      | nil => simp [offsets]
      | cons x xs =>
        cases ys with
        | nil => simp [offsets]
        | cons y ys => exact absurd rfl (h d ds x xs y ys rfl rfl)

theorem distance_eq_ok {a b : TimedAccess} {v : OffsetVector} :
    (a.distance b).run.value = .ok v ↔
      Aligned a b ∧ v = offsets a.directions a.indices b.indices := by
  unfold distance
  rw [Analysis.value_bind_eq_ok, offsets_eq_map]
  simp only [check_eq_ok, Analysis.value_lift, Checked.value_mapM, Except.ok.injEq]
  constructor
  · rintro ⟨-, haligned, hv⟩
    exact ⟨haligned, hv.symm⟩
  · rintro ⟨haligned, hv⟩
    exact ⟨(), haligned, hv.symm⟩

def order (a b : TimedAccess) : Option Ordering := sign? (offsets a.directions a.indices b.indices)

theorem compare?_eq_ok {a b : TimedAccess} {o : Option Ordering} :
    (a.compare? b).run.value = .ok o ↔ Aligned a b ∧ o = order a b := by
  unfold compare?
  rw [Analysis.value_bind_eq_ok]
  simp only [distance_eq_ok]
  constructor
  · rintro ⟨v, ⟨haligned, rfl⟩, ho⟩
    exact ⟨haligned, (Except.ok.inj ho).symm⟩
  · rintro ⟨haligned, rfl⟩
    exact ⟨_, ⟨haligned, rfl⟩, rfl⟩

theorem order_self (a : TimedAccess) : order a a = some .eq := by
  have hzero (ds : List Direction) (xs : List Expr) : (offsets ds xs xs).isZero = true := by
    unfold OffsetVector.isZero
    induction ds generalizing xs with
    | nil => rfl
    | cons d ds ih =>
      cases xs with
      | nil => rfl
      | cons x xs =>
        have hself : (difference x x d).value = .num 0 := by
          cases d <;> simp [difference, Expr.difference_self]
        rw [offsets, List.all_cons, ih, hself]
        rfl
  exact OffsetVector.sign?_eq_eq_iff.2 (hzero _ _)

theorem toInt?_difference_swap {x y : Expr} (h : x.Reversible y) (d : Direction) :
    (difference y x d).value.toInt? = (difference x y d).value.toInt?.map Neg.neg := by
  cases d with
  | forward => exact h
  | backward => exact h.symm

theorem sign?_offsets_swap {xs ys : List Expr} (h : List.Forall₂ Expr.Reversible xs ys)
    (ds : List Direction) :
    sign? (offsets ds ys xs) = (sign? (offsets ds xs ys)).map Ordering.swap := by
  induction h generalizing ds with
  | nil => cases ds <;> rfl
  | @cons x y xs ys hxy _ ih =>
    cases ds with
    | nil => rfl
    | cons d ds =>
      rw [offsets, offsets, OffsetVector.sign?_cons, OffsetVector.sign?_cons, ih,
        toInt?_difference_swap hxy]
      cases (difference x y d).value.toInt? with
      | none => rfl
      | some i =>
        have hswap : compare (-i) 0 = (compare i 0).swap := by
          rw [Int.compare_swap, Int.compare_eq_ite_lt, Int.compare_eq_ite_lt]
          grind
        cases sign? (offsets ds xs ys) <;> simp [hswap, Ordering.swap_then]

theorem isZero_offsets {xs ys : List Expr} (h : List.Forall₂ Expr.Reversible xs ys)
    {ds : List Direction} (hlength : xs.length = ds.length) :
    (offsets ds xs ys).isZero =
      OffsetVector.isZero ((xs.zip ys).map fun e => (e.1.difference e.2).value) := by
  unfold OffsetVector.isZero
  induction h generalizing ds with
  | nil => cases ds <;> rfl
  | @cons x y xs ys hxy _ ih =>
    cases ds with
    | nil => simp at hlength
    | cons d ds =>
      have hhead : ((difference x y d).value.toInt? == some 0) =
          ((x.difference y).value.toInt? == some 0) := by
        cases d with
        | forward => rfl
        | backward =>
          have hrev : (y.difference x).value.toInt? = _ := hxy
          rw [difference, hrev]
          cases (x.difference y).value.toInt? <;> simp
      rw [offsets, List.zip_cons_cons, List.map_cons, List.all_cons, List.all_cons, hhead,
        ih (by simpa using hlength)]

/--
Two accesses to the same array that go together, with an index along each dimension, and with
indices whose differences do not depend on their order.
-/
structure Matched (a b : TimedAccess) : Prop extends Aligned a b where
  function : a.function = b.function
  covered : a.indices.length = a.directions.length
  reversible : List.Forall₂ Expr.Reversible a.indices b.indices

namespace Matched

variable {a b : TimedAccess}

theorem symm (h : Matched a b) : Matched b a where
  toAligned := h.toAligned.symm
  function := h.function.symm
  covered := by rw [← h.rank, ← h.directions, h.covered]
  reversible := h.reversible.flip.imp fun _ _ hrev => Expr.Reversible.symm hrev

theorem value_compare? (h : Matched a b) : (a.compare? b).run.value = .ok (order a b) :=
  compare?_eq_ok.2 ⟨h.toAligned, rfl⟩

theorem order_swap (h : Matched a b) : order b a = (order a b).map Ordering.swap := by
  unfold order
  rw [← h.directions]
  exact sign?_offsets_swap h.reversible _

theorem value_samePoint (h : Matched a b) :
    (a.samePoint b).run.value = .ok (order a b == some .eq) := by
  have hpoint : (a.access.samePoint b.access).run.value = .ok (order a b == some .eq) := by
    unfold Access.samePoint
    have hfunction : a.access.function = b.access.function := h.function
    have hzero : (order a b == some .eq) =
        OffsetVector.isZero
          ((a.indices.zip b.indices).map fun e => (e.1.difference e.2).value) := by
      rw [← isZero_offsets h.reversible h.covered, Bool.eq_iff_iff, beq_iff_eq]
      exact OffsetVector.sign?_eq_eq_iff
    rw [if_pos hfunction, hzero, Analysis.value_bind_eq_ok]
    refine ⟨(), Access.checkDimensions_eq_ok.2 h.dimensions, ?_⟩
    rw [Analysis.value_bind_eq_ok]
    exact ⟨_, OffsetVector.value_sub h.rank, rfl⟩
  unfold samePoint
  rw [Analysis.value_bind_eq_ok]
  exact ⟨_, hpoint, by simp [h.directions]⟩

end Matched

end TimedAccess

def FunctionDecl.line (name : String) : GridFunction := .declare name .dense [.space "x"] [.num 8]

end Stencil
