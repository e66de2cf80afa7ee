import Mathlib.Data.List.Forall2
import Stencil.OffsetVector

/-!
This module contains the laws of checked computations and of analyses. What a computation gives and
whether it stays in range are looked at separately, so most facts about values hold of all
computations, in range or not.
-/

namespace Stencil

universe u v

theorem exists_mem_right {α β : Type} {R : α → β → Prop} {as : List α} {bs : List β} {a : α}
    (h : List.Forall₂ R as bs) (ha : a ∈ as) : ∃ b ∈ bs, R a b := by
  induction h with
  | nil => cases ha
  | cons hab _ ih =>
    rcases List.mem_cons.1 ha with rfl | ha
    · exact ⟨_, List.mem_cons_self .., hab⟩
    · obtain ⟨b, hb, hrel⟩ := ih ha
      exact ⟨b, List.mem_cons_of_mem _ hb, hrel⟩

theorem exists_mem_left {α β : Type} {R : α → β → Prop} {as : List α} {bs : List β} {b : β}
    (h : List.Forall₂ R as bs) (hb : b ∈ bs) : ∃ a ∈ as, R a b :=
  exists_mem_right h.flip hb

theorem forall₂_imp_of_mem {α β : Type} {R S : α → β → Prop} {as : List α} {bs : List β}
    (h : List.Forall₂ R as bs) (hS : ∀ a ∈ as, ∀ b ∈ bs, R a b → S a b) :
    List.Forall₂ S as bs := by
  induction h with
  | nil => exact .nil
  | cons hab _ ih =>
    refine .cons (hS _ (List.mem_cons_self ..) _ (List.mem_cons_self ..) hab) (ih ?_)
    exact fun a ha b hb => hS a (List.mem_cons_of_mem _ ha) b (List.mem_cons_of_mem _ hb)

theorem pairwise_of_forall₂ {α β : Type} {R : α → β → Prop} {S : β → β → Prop} {T : α → α → Prop}
    {as : List α} {bs : List β} (h : List.Forall₂ R as bs) (hS : bs.Pairwise S)
    (hT : ∀ a b a' b', R a b → R a' b' → S b b' → T a a') : as.Pairwise T := by
  induction h with
  | nil => exact .nil
  | cons hab hrest ih =>
    rw [List.pairwise_cons] at hS ⊢
    refine ⟨fun a' ha' => ?_, ih hS.2⟩
    obtain ⟨b', hb', hab'⟩ := exists_mem_right hrest ha'
    exact hT _ _ _ _ hab hab' (hS.1 b' hb')

namespace Checked

theorem eq_pure_iff {x : Checked α} {a : α} : x = pure a ↔ x.fits = true ∧ x.value = a := by
  constructor
  · rintro rfl
    exact ⟨rfl, rfl⟩
  · rintro ⟨hfits, rfl⟩
    exact Checked.ext rfl hfits

@[simp]
theorem value_foldlM (f : β → α → Checked β) (b : β) (as : List α) :
    (as.foldlM f b).value = as.foldl (fun b a => (f b a).value) b := by
  induction as generalizing b with
  | nil => rfl
  | cons a as ih => simp [List.foldlM_cons, ih]

@[simp]
theorem value_mapM (f : α → Checked β) (as : List α) :
    (as.mapM f).value = as.map fun a => (f a).value := by
  induction as with
  | nil => rfl
  | cons a as ih => simp [List.mapM_cons, ih]

theorem fits_mapM (f : α → Checked β) (as : List α) :
    (as.mapM f).fits = true ↔ ∀ a ∈ as, (f a).fits = true := by
  induction as with
  | nil => simp
  | cons a as ih => simp [List.mapM_cons, ih]

theorem exists_fits_of_foldlM {f : β → α → Checked β} {b : β} {as : List α}
    (h : (as.foldlM f b).fits = true) {a : α} (ha : a ∈ as) : ∃ b', (f b' a).fits = true := by
  induction as generalizing b with
  | nil => cases ha
  | cons a' as ih =>
    rw [List.foldlM_cons, fits_bind, Bool.and_eq_true] at h
    rcases List.mem_cons.1 ha with rfl | ha
    · exact ⟨b, h.1⟩
    · exact ih h.2 ha

theorem value_filterAuxM (p : α → Checked Bool) (as acc : List α) :
    (as.filterAuxM p acc).value = (as.filter fun a => (p a).value).reverse ++ acc := by
  induction as generalizing acc with
  | nil => rfl
  | cons a as ih =>
    rw [List.filterAuxM, value_bind, ih]
    cases h : (p a).value <;> simp [h]

@[simp]
theorem value_filterM (p : α → Checked Bool) (as : List α) :
    (as.filterM p).value = as.filter fun a => (p a).value := by
  unfold List.filterM
  rw [value_bind, value_pure, value_filterAuxM, List.append_nil, List.reverse_reverse]

theorem fits_filterAuxM (p : α → Checked Bool) (as acc : List α) :
    (as.filterAuxM p acc).fits = true ↔ ∀ a ∈ as, (p a).fits = true := by
  induction as generalizing acc with
  | nil => simp [List.filterAuxM]
  | cons a as ih => rw [List.filterAuxM, fits_bind, Bool.and_eq_true, ih, List.forall_mem_cons]

theorem fits_filterM (p : α → Checked Bool) (as : List α) :
    (as.filterM p).fits = true ↔ ∀ a ∈ as, (p a).fits = true := by
  unfold List.filterM
  rw [fits_bind, fits_pure, Bool.and_true, fits_filterAuxM]

end Checked

namespace Analysis

variable {ε ε' α β : Type}

@[simp]
theorem value_pure (a : α) : (pure a : ExceptT ε Checked α).run.value = .ok a := rfl

@[simp]
theorem value_lift (x : Checked α) : (liftM x : ExceptT ε Checked α).run.value = .ok x.value := rfl

@[simp]
theorem fits_lift (x : Checked α) : (liftM x : ExceptT ε Checked α).run.fits = x.fits :=
  Checked.fits_map Except.ok x

theorem value_bind (x : ExceptT ε Checked α) (f : α → ExceptT ε Checked β) :
    (x >>= f).run.value = x.run.value >>= fun a => (f a).run.value := by
  rw [ExceptT.run_bind]
  simp only [Checked.value_bind]
  cases x.run.value <;> rfl

theorem bind_eq_ok {x : Except ε α} {f : α → Except ε β} {b : β} :
    x >>= f = .ok b ↔ ∃ a, x = .ok a ∧ f a = .ok b := by
  cases x <;> simp [bind, Except.bind]

theorem value_bind_eq_ok {x : ExceptT ε Checked α} {f : α → ExceptT ε Checked β} {b : β} :
    (x >>= f).run.value = .ok b ↔ ∃ a, x.run.value = .ok a ∧ (f a).run.value = .ok b := by
  rw [value_bind, bind_eq_ok]

theorem value_bind_of_ok {x : ExceptT ε Checked α} {f : α → ExceptT ε Checked β} {a : α}
    (h : x.run.value = .ok a) : (x >>= f).run.value = (f a).run.value := by
  rw [value_bind, h]
  rfl

theorem fits_of_fits_bind {x : ExceptT ε Checked α} {f : α → ExceptT ε Checked β}
    (h : (x >>= f).run.fits = true) : x.run.fits = true := by
  rw [ExceptT.run_bind, Checked.fits_bind, Bool.and_eq_true] at h
  exact h.1

theorem fits_bind_of_ok {x : ExceptT ε Checked α} {f : α → ExceptT ε Checked β} {a : α}
    (h : x.run.value = .ok a) : (x >>= f).run.fits = (x.run.fits && (f a).run.fits) := by
  rw [ExceptT.run_bind, Checked.fits_bind, h]

theorem fits_bind {x : ExceptT ε Checked α} {f : α → ExceptT ε Checked β}
    (hx : x.run.fits = true) (hf : ∀ a, x.run.value = .ok a → (f a).run.fits = true) :
    (x >>= f).run.fits = true := by
  cases h : x.run.value with
  | error e =>
    rw [ExceptT.run_bind, Checked.fits_bind, h, hx]
    rfl
  | ok a => rw [fits_bind_of_ok h, hx, hf a h, Bool.and_true]

theorem mapM_eq_ok {f : α → Except ε β} {as : List α} {bs : List β} :
    as.mapM f = .ok bs ↔ List.Forall₂ (fun a b => f a = .ok b) as bs := by
  induction as generalizing bs with
  | nil =>
    rw [List.mapM_nil, List.forall₂_nil_left_iff]
    simp [pure, Except.pure, eq_comm]
  | cons a as ih =>
    simp only [List.mapM_cons, bind_eq_ok, ih, pure, Except.pure, Except.ok.injEq,
      List.forall₂_cons_left_iff]
    constructor
    · rintro ⟨b, hb, bs', hbs', rfl⟩
      exact ⟨b, bs', hb, hbs', rfl⟩
    · rintro ⟨b, bs', hb, hbs', rfl⟩
      exact ⟨b, hb, bs', hbs', rfl⟩

theorem bind_eq_error {x : Except ε α} {f : α → Except ε β} {e : ε} :
    x >>= f = .error e ↔ x = .error e ∨ ∃ a, x = .ok a ∧ f a = .error e := by
  cases x <;> simp [bind, Except.bind]

theorem value_bind_eq_error {x : ExceptT ε Checked α} {f : α → ExceptT ε Checked β} {e : ε} :
    (x >>= f).run.value = .error e ↔
      x.run.value = .error e ∨ ∃ a, x.run.value = .ok a ∧ (f a).run.value = .error e := by
  rw [value_bind, bind_eq_error]

theorem exists_error_of_mapM {f : α → Except ε β} {as : List α} {e : ε}
    (h : as.mapM f = .error e) : ∃ a ∈ as, f a = .error e := by
  induction as with
  | nil => cases h
  | cons a as ih =>
    rw [List.mapM_cons, bind_eq_error] at h
    rcases h with h | ⟨b, -, h⟩
    · exact ⟨a, List.mem_cons_self .., h⟩
    · rw [bind_eq_error] at h
      rcases h with h | ⟨bs, -, h⟩
      · obtain ⟨a', ha', he⟩ := ih h
        exact ⟨a', List.mem_cons_of_mem _ ha', he⟩
      · cases h

theorem value_mapM (f : α → ExceptT ε Checked β) (as : List α) :
    (as.mapM f).run.value = as.mapM fun a => (f a).run.value := by
  induction as with
  | nil => rfl
  | cons a as ih =>
    simp only [List.mapM_cons, value_bind, ih]
    rfl

theorem value_mapM_eq_ok {f : α → ExceptT ε Checked β} {as : List α} {bs : List β} :
    (as.mapM f).run.value = .ok bs ↔ List.Forall₂ (fun a b => (f a).run.value = .ok b) as bs := by
  rw [value_mapM, mapM_eq_ok]

theorem value_adapt (f : ε → ε') (x : ExceptT ε Checked α) :
    (ExceptT.adapt f x).run.value = x.run.value.mapError f := rfl

theorem value_adapt_eq_ok {f : ε → ε'} {x : ExceptT ε Checked α} {a : α} :
    (ExceptT.adapt f x).run.value = .ok a ↔ x.run.value = .ok a := by
  rw [value_adapt]
  cases x.run.value <;> simp [Except.mapError]

theorem value_foldlM (f : β → α → ExceptT ε Checked β) (as : List α) (b : β) :
    (as.foldlM f b).run.value = as.foldlM (fun b a => (f b a).run.value) b := by
  induction as generalizing b with
  | nil => rfl
  | cons a as ih => simp only [List.foldlM_cons, value_bind, ih]

theorem of_foldlM_eq_ok {f : β → α → Except ε β} {I : β → Prop} {as : List α} {b b' : β}
    (hstep : ∀ a ∈ as, ∀ b b', I b → f b a = .ok b' → I b') (hb : I b)
    (h : as.foldlM f b = .ok b') : I b' := by
  induction as generalizing b with
  | nil =>
    obtain rfl := Except.ok.inj h
    exact hb
  | cons a as ih =>
    rw [List.foldlM_cons, bind_eq_ok] at h
    obtain ⟨c, hc, h⟩ := h
    rw [List.forall_mem_cons] at hstep
    exact ih hstep.2 (hstep.1 b c hb hc) h

theorem exists_error_of_value_foldlM {f : β → α → ExceptT ε Checked β} {as : List α} {b : β}
    {e : ε} (h : (as.foldlM f b).run.value = .error e) :
    ∃ b, ∃ a ∈ as, (f b a).run.value = .error e := by
  induction as generalizing b with
  | nil => cases h
  | cons a as ih =>
    rw [List.foldlM_cons, value_bind_eq_error] at h
    rcases h with h | ⟨b', -, h⟩
    · exact ⟨b, a, List.mem_cons_self .., h⟩
    · obtain ⟨b'', a', ha', he⟩ := ih h
      exact ⟨b'', a', List.mem_cons_of_mem _ ha', he⟩

end Analysis

end Stencil
