/-!
This module contains `Checked`, the result of a computation on machine integers. Such a computation
is carried out on unbounded integers and records on the side whether each of its steps stayed in
range, so that facts about the value can be stated without looking at the range at all.
-/

namespace Stencil

universe u v

/--
A value computed without bounds, and whether every step on the way to it was in range. The value is
only an answer if `fits` is true.
-/
structure Checked (α : Type u) where
  value : α
  fits : Bool
  deriving DecidableEq

namespace Checked

@[inline]
def guarded (ok : Bool) (value : α) : Checked α := ⟨value, ok⟩

@[inline]
def ensure (ok : Bool) : Checked Unit := ⟨(), ok⟩

def toOption (x : Checked α) : Option α := if x.fits then some x.value else none

@[inline]
protected def bind {α : Type u} {β : Type v} (x : Checked α) (f : α → Checked β) : Checked β :=
  let y := f x.value
  ⟨y.value, x.fits && y.fits⟩

instance : Monad Checked where
  pure a := ⟨a, true⟩
  bind := Checked.bind

@[ext]
protected theorem ext {x y : Checked α} (hvalue : x.value = y.value) (hfits : x.fits = y.fits) :
    x = y := by
  cases x
  cases y
  simp_all

@[simp]
theorem value_pure (a : α) : (pure a : Checked α).value = a := rfl

@[simp]
theorem fits_pure (a : α) : (pure a : Checked α).fits = true := rfl

@[simp]
theorem value_bind (x : Checked α) (f : α → Checked β) : (x >>= f).value = (f x.value).value := rfl

@[simp]
theorem fits_bind (x : Checked α) (f : α → Checked β) :
    (x >>= f).fits = (x.fits && (f x.value).fits) := rfl

@[simp]
theorem value_map (f : α → β) (x : Checked α) : (f <$> x).value = f x.value := rfl

@[simp]
theorem fits_map (f : α → β) (x : Checked α) : (f <$> x).fits = x.fits := by
  change (x.fits && true) = x.fits
  simp

@[simp]
theorem value_guarded (ok : Bool) (a : α) : (guarded ok a).value = a := rfl

@[simp]
theorem fits_guarded (ok : Bool) (a : α) : (guarded ok a).fits = ok := rfl

@[simp]
theorem fits_ensure (ok : Bool) : (ensure ok).fits = ok := rfl

instance : LawfulMonad Checked :=
  LawfulMonad.mk' Checked
    (fun x => Checked.ext rfl (fits_map id x))
    (fun _ _ => Checked.ext rfl (Bool.true_and _))
    (fun _ _ _ => Checked.ext rfl (Bool.and_assoc _ _ _))

end Checked

end Stencil
