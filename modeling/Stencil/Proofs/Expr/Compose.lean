import Stencil.Proofs.Expr.Regroup

/-!
This module contains replacements that follow each other. After names have been put in the place of
subexpressions, a second replacement may give these other names, or put back what they stand for.
Both together are a single replacement. Nothing is computed with numbers meanwhile, so that they
stay in the range of machine words.
-/

namespace Stencil

namespace Expr

theorem sum_eq_of_perm {es fs : List Expr} (h : es.Perm fs) : (sum es).value = (sum fs).value :=
  sum_congr (.of_perm (h.flatMap_right _))

theorem product_eq_of_perm {es fs : List Expr} (h : es.Perm fs) :
    (product es).value = (product fs).value :=
  product_congr (.of_perm (h.flatMap_right _))

theorem naming_none : Naming fun _ => none := by
  intro a b hab
  cases hab

theorem value_replace_none {e : Expr} (he : e.Canonical) :
    (replace (fun _ => none) e).value = e :=
  he.replace_eq_self fun _ _ => rfl

/-- On what is within `e`, a replacement `σ` that is followed by `τ` does what `σ'` does. -/
structure Composes (σ τ σ' : Expr → Option Expr) (e : Expr) : Prop where
  found : ∀ a s, a.Within e → σ a = some (sym s) →
    (replace σ' a).value = (replace τ (sym s)).value
  kept : ∀ a, a.Within e → σ a = none → σ' a = τ (replace σ a).value

namespace Composes

variable {σ τ σ' : Expr → Option Expr}

theorem of_mem_args {e a : Expr} (h : Composes σ τ σ' e) (ha : a ∈ e.args) :
    Composes σ τ σ' a where
  found b s hb := h.found b s (.arg ha hb)
  kept b hb := h.kept b (.arg ha hb)

theorem value_replace (hσ : Naming σ) {e : Expr} (he : e.Canonical) (h : Composes σ τ σ' e) :
    (replace τ (replace σ e).value).value = (replace σ' e).value := by
  have hargs {e : Expr} (h : Composes σ τ σ' e)
      (ih : ∀ a ∈ e.args, Composes σ τ σ' a →
        (replace τ (replace σ a).value).value = (replace σ' a).value) :
      (e.args.map fun a => (replace σ a).value).map (fun a => (replace τ a).value) =
        e.args.map fun a => (replace σ' a).value := by
    rw [List.map_map]
    exact List.map_congr_left fun a ha => ih a ha (h.of_mem_args ha)
  have hcases {e e' : Expr} (hsame : σ' e = τ e')
      (hnone : τ e' = none → (replace τ e').value = (replace σ' e).value) :
      (replace τ e').value = (replace σ' e).value := by
    cases hτ : τ e' with
    | none => exact hnone hτ
    | some b => rw [value_replace_of_some hτ, value_replace_of_some (hsame.trans hτ)]
  refine hσ.induct (motive := fun e e' =>
    Composes σ τ σ' e → (replace τ e').value = (replace σ' e).value)
    ?found ?leaf ?add ?mul ?pow ?call e he h
  case found => exact fun e s hs h => (h.found e s .self hs).symm
  case leaf =>
    intro e _ hnone hleaf h
    have hsame : σ' e = τ e := by
      rw [h.kept e .self hnone, value_replace_of_leaf hnone hleaf]
    apply hcases hsame
    intro hτ
    rw [value_replace_of_leaf hτ hleaf, value_replace_of_leaf (hsame.trans hτ) hleaf]
  case add =>
    intro ts us _ hus hnone hperm ih h
    have hsame : σ' (.add ts) = τ (.add us) := by
      rw [h.kept _ .self hnone, value_replace_add hnone, hus.sum_eq hperm.symm]
    apply hcases hsame
    intro hτ
    rw [value_replace_add hτ, value_replace_add (hsame.trans hτ)]
    apply sum_eq_of_perm
    exact (hperm.map _).trans (.of_eq (hargs h ih))
  case mul =>
    intro fs gs _ hgs hnone hperm ih h
    have hsame : σ' (.mul fs) = τ (.mul gs) := by
      rw [h.kept _ .self hnone, value_replace_mul hnone, hgs.product_eq hperm.symm]
    apply hcases hsame
    intro hτ
    rw [value_replace_mul hτ, value_replace_mul (hsame.trans hτ)]
    apply product_eq_of_perm
    exact (hperm.map _).trans (.of_eq (hargs h ih))
  case pow =>
    intro b n _ hpow hnone ih h
    have hsame : σ' (.pow b n) = τ (.pow (replace σ b).value n) := by
      rw [h.kept _ .self hnone, value_replace_pow hnone, hpow.power_eq]
    apply hcases hsame
    intro hτ
    rw [value_replace_pow hτ, value_replace_pow (hsame.trans hτ),
      ih (h.of_mem_args (List.mem_singleton_self b))]
  case call =>
    intro s as _ _ hnone ih h
    have hsame := h.kept _ .self hnone
    rw [value_replace_call hnone] at hsame
    apply hcases hsame
    intro hτ
    rw [value_replace_call hτ, value_replace_call (hsame.trans hτ)]
    exact congrArg (Expr.call s) (hargs h ih)

end Composes

/-- The numbers in an expression, outside of index functions, are fractions of words. -/
def Words (e : Expr) : Prop := ∀ q, (num q).Within e → Fraction.isWords q = true

theorem Words.of_within {e x : Expr} (h : e.Words) (hx : x.Within e) : x.Words :=
  fun q hq => h q (hq.trans hx)

theorem words_of_args {e : Expr} (hnumber : e.isNumber = false)
    (h : ∀ a ∈ e.args, a.Words) : e.Words := by
  intro q hq
  rcases within_iff.1 hq with rfl | ⟨a, ha, hq⟩
  · cases hnumber
  · exact h a ha q hq

theorem fits_foldNumbers {op : Rat → Rat → Checked Rat} {c : Rat}
    (hop : ∀ q, Fraction.isWords q = true → (op c q).fits = true) {es : List Expr}
    (hle : (es.filter isNumber).length ≤ 1)
    (hwords : ∀ q, num q ∈ es → Fraction.isWords q = true) :
    (foldNumbers op c es).fits = true := by
  rw [← foldNumbers_filter]
  have hmem : ∀ e ∈ es.filter isNumber, ∃ q, e = num q ∧ Fraction.isWords q = true := by
    intro e he
    obtain ⟨he, hnumber⟩ := List.mem_filter.1 he
    obtain ⟨q, rfl⟩ := isNumber_iff.1 hnumber
    exact ⟨q, rfl, hwords q he⟩
  cases hnumbers : es.filter isNumber with
  | nil => rfl
  | cons e rest =>
    rw [hnumbers] at hle hmem
    obtain rfl : rest = [] :=
      List.eq_nil_of_length_eq_zero (Nat.le_zero.1 (Nat.le_of_succ_le_succ hle))
    obtain ⟨q, rfl, hq⟩ := hmem e (List.mem_cons_self ..)
    simpa [foldNumbers] using hop q hq

theorem fits_sum {ts : List Expr} (h : Arguments isSum [0] (sort ts))
    (hwords : ∀ q, num q ∈ ts → Fraction.isWords q = true) : (sum ts).fits = true := by
  have hterms : ts.flatMap terms = ts := h.flatMap_eq fun e he => terms_of_not_sum he
  have hnumbers : (ts.filter isNumber).length ≤ 1 := by
    rw [← ((sort_perm ts).filter isNumber).length_eq]
    exact h.numbers_le
  simp only [sum, Checked.fits_bind, Checked.fits_pure, hterms, Bool.and_true]
  exact fits_foldNumbers (fun q => Fraction.fits_zero_add.2) hnumbers hwords

theorem fits_product {fs : List Expr} (h : Arguments isProduct [0, 1] (sort fs))
    (hwords : ∀ q, num q ∈ fs → Fraction.isWords q = true) : (product fs).fits = true := by
  have hfactors : fs.flatMap factors = fs := h.flatMap_eq fun e he => factors_of_not_product he
  have hnumbers : (fs.filter isNumber).length ≤ 1 := by
    rw [← ((sort_perm fs).filter isNumber).length_eq]
    exact h.numbers_le
  simp only [product, Checked.fits_bind, Checked.fits_pure, hfactors, Bool.and_true]
  apply fits_foldNumbers _ hnumbers hwords
  intro q hq
  simpa [Fraction.mul] using hq

theorem fits_power {b : Expr} {n : Int} (hb : ∀ q, b = num q → q = 0 ∧ n < 0) :
    (power b n).fits = true := by
  unfold power
  split
  · rfl
  · split
    · rfl
    · split
      · next q =>
        obtain ⟨rfl, hneg⟩ := hb q rfl
        rw [if_neg (by simpa using hneg.le)]
        rfl
      · rfl

theorem fits_replace_of_some {σ : Expr → Option Expr} {e e' : Expr} (hσ : σ e = some e') :
    (replace σ e).fits = true := by
  cases e <;> simp [replace, hσ]

theorem fits_replace_of_leaf {σ : Expr → Option Expr} {e : Expr} (he : e.isOperation = false) :
    (replace σ e).fits = true := by
  cases e <;> simp_all [replace, isOperation]
  all_goals split <;> rfl

namespace Atomic

variable {σ τ : Expr → Option Expr}

theorem kept_replace (hσ : Atomic σ) {e : Expr} (he : e.Canonical) :
    Kept e (replace σ e).value := by
  apply hσ.induct (motive := Kept) _ _ _ _ _ _ e he
  · intro e e' hfound
    have hatom := (hσ e e' hfound).1
    cases e' with
    | sym s => exact ⟨by simp [isNumber], by simp [isSum], by simp [isProduct]⟩
    | access f is => exact ⟨by simp [isNumber], by simp [isSum], by simp [isProduct]⟩
    | _ => cases hatom
  · exact fun _ _ _ _ => ⟨fun _ => rfl, id, id⟩
  · exact fun _ _ _ _ _ _ _ => ⟨by simp [isNumber], fun _ => rfl, by simp [isProduct]⟩
  · exact fun _ _ _ _ _ _ _ => ⟨by simp [isNumber], by simp [isSum], fun _ => rfl⟩
  · exact fun _ _ _ _ _ _ => ⟨by simp [isNumber], by simp [isSum], by simp [isProduct]⟩
  · exact fun _ _ _ _ _ _ => ⟨by simp [isNumber], by simp [isSum], by simp [isProduct]⟩

theorem words_replace (hσ : Atomic σ) {e : Expr} (he : e.Canonical) (hwords : e.Words) :
    (replace σ e).value.Words := by
  have hperm {e : Expr} {us : List Expr} (hwords : e.Words)
      (hus : us.Perm (e.args.map fun a => (replace σ a).value))
      (ih : ∀ a ∈ e.args, a.Words → (replace σ a).value.Words) : ∀ u ∈ us, u.Words := by
    intro u hu
    obtain ⟨a, ha, rfl⟩ := List.mem_map.1 (hus.mem_iff.1 hu)
    exact ih a ha (hwords.of_within (.arg ha .self))
  refine hσ.induct (motive := fun e e' => e.Words → e'.Words)
    ?found ?leaf ?add ?mul ?pow ?call e he hwords
  case found =>
    intro e e' hfound _
    have hatom := (hσ e e' hfound).1
    cases e' with
    | sym s => exact words_of_args rfl (by simp [args])
    | access f is => exact words_of_args rfl (by simp [args])
    | _ => cases hatom
  case leaf => exact fun _ _ _ _ hwords => hwords
  case add =>
    exact fun ts us _ _ _ hus ih hwords => words_of_args rfl (hperm (e := .add ts) hwords hus ih)
  case mul =>
    exact fun fs gs _ _ _ hgs ih hwords => words_of_args rfl (hperm (e := .mul fs) hwords hgs ih)
  case pow =>
    intro b n _ _ _ ih hwords
    apply words_of_args rfl
    exact hperm (e := .pow b n) hwords (.refl _) (List.forall_mem_singleton.2 ih)
  case call =>
    intro s as _ _ _ ih hwords
    exact words_of_args rfl (hperm (e := .call s as) hwords (.refl _) ih)

theorem replace_restore (hσ : Atomic σ) (hinverse : ∀ a b, σ a = some b → τ b = some a)
    (hτ : ∀ a b, τ a = some b → a.isAtom = true) {e : Expr} (he : e.Canonical)
    (hfresh : ∀ x, x.isAtom = true → x.Within e → σ x = none → τ x = none) :
    (replace τ (replace σ e).value).value = e := by
  have hnone {x : Expr} (hx : x.isAtom = false) : τ x = none := by
    cases hcase : τ x with
    | none => rfl
    | some b =>
      rw [hτ x b hcase] at hx
      cases hx
  have hargs {e : Expr} {us : List Expr}
      (hfresh : ∀ x, x.isAtom = true → x.Within e → σ x = none → τ x = none)
      (hperm : us.Perm (e.args.map fun a => (replace σ a).value))
      (ih : ∀ a ∈ e.args, (∀ x, x.isAtom = true → x.Within a → σ x = none → τ x = none) →
        (replace τ (replace σ a).value).value = a) :
      (us.map fun u => (replace τ u).value).Perm e.args := by
    apply (hperm.map _).trans (.of_eq _)
    rw [List.map_map, List.map_congr_left (g := id), List.map_id]
    exact fun a ha => ih a ha fun x hx hwithin => hfresh x hx (.arg ha hwithin)
  refine hσ.induct (motive := fun e e' =>
    (∀ x, x.isAtom = true → x.Within e → σ x = none → τ x = none) → (replace τ e').value = e)
    ?found ?leaf ?add ?mul ?pow ?call e he hfresh
  case found => exact fun e e' hfound _ => value_replace_of_some (hinverse e e' hfound)
  case leaf =>
    intro e _ hσe hleaf hfresh
    apply value_replace_of_leaf _ hleaf
    cases hatom : e.isAtom with
    | false => exact hnone hatom
    | true => exact hfresh e hatom .self hσe
  case add =>
    intro ts us hts _ _ hperm ih hfresh
    rw [value_replace_add (hnone rfl)]
    exact hts.sum_eq (hargs hfresh hperm ih)
  case mul =>
    intro fs gs hfs _ _ hperm ih hfresh
    rw [value_replace_mul (hnone rfl)]
    exact hfs.product_eq (hargs hfresh hperm ih)
  case pow =>
    intro b n hpow _ _ ih hfresh
    rw [value_replace_pow (hnone rfl), ih fun x hx hwithin => hfresh x hx
      (.arg (List.mem_singleton_self b) hwithin)]
    exact hpow.power_eq
  case call =>
    intro s as _ _ _ ih hfresh
    rw [value_replace_call (hnone rfl), List.map_map, List.map_congr_left (g := id), List.map_id]
    exact fun a ha => ih a ha fun x hx hwithin => hfresh x hx (.arg ha hwithin)

end Atomic

namespace Naming

variable {σ τ σ' : Expr → Option Expr}

theorem replace_eq_self (hσ : Naming σ) {e : Expr} (he : e.Canonical)
    (hunnamed : ∀ a s, σ a = some (sym s) → ¬ (sym s).Within (replace σ e).value) :
    (replace σ e).value = e := by
  have hargs {es us : List Expr} (hperm : us.Perm (es.map fun e => (replace σ e).value))
      (hunnamed : ∀ a s, σ a = some (sym s) → ∀ u ∈ us, ¬ (sym s).Within u)
      (ih : ∀ e ∈ es, (∀ a s, σ a = some (sym s) → ¬ (sym s).Within (replace σ e).value) →
        (replace σ e).value = e) : us.Perm es := by
    apply hperm.trans (.of_eq _)
    rw [List.map_congr_left (g := id), List.map_id]
    intro e he
    exact ih e he fun a s hs => hunnamed a s hs _ (hperm.mem_iff.2 (List.mem_map_of_mem he))
  refine hσ.induct (motive := fun e e' =>
    (∀ a s, σ a = some (sym s) → ¬ (sym s).Within e') → e' = e)
    ?found ?leaf ?add ?mul ?pow ?call e he hunnamed
  case found => exact fun e s hs hunnamed => absurd .self (hunnamed e s hs)
  case leaf => exact fun _ _ _ _ _ => rfl
  case add =>
    intro ts us hts hus _ hperm ih hunnamed
    have hperm := hargs hperm (fun a s hs u hu hwithin => hunnamed a s hs (.arg hu hwithin)) ih
    rw [← hts.sum_eq hperm, hus.sum_eq (.refl _)]
  case mul =>
    intro fs gs hfs hgs _ hperm ih hunnamed
    have hperm := hargs hperm (fun a s hs g hg hwithin => hunnamed a s hs (.arg hg hwithin)) ih
    rw [← hfs.product_eq hperm, hgs.product_eq (.refl _)]
  case pow =>
    intro b n _ _ _ ih hunnamed
    rw [ih fun a s hs hwithin => hunnamed a s hs (.arg (List.mem_singleton_self _) hwithin)]
  case call =>
    intro s as _ _ _ ih hunnamed
    rw [List.map_congr_left (g := id), List.map_id]
    intro a ha
    apply ih a ha
    intro b t ht hwithin
    exact hunnamed b t ht (.arg (List.mem_map_of_mem ha) hwithin)

theorem eq_sym_of_replace (hσ : Naming σ) {e : Expr} (he : e.Canonical) (hnone : σ e = none)
    {s : String} (hs : (replace σ e).value = sym s) : e = sym s := by
  cases hop : e.isOperation with
  | false => rwa [value_replace_of_leaf hnone hop] at hs
  | true =>
    have hop' := (hσ.operation_replace he hnone hop).1
    rw [hs] at hop'
    cases hop'

theorem replace_restore (hσ : Naming σ) (hinverse : ∀ a b, σ a = some b → τ b = some a)
    (hτ : ∀ a b, τ a = some b → ∃ s, a = sym s) {e : Expr} (he : e.Canonical)
    (hfresh : ∀ s, (sym s).Within e → σ (sym s) = none → τ (sym s) = none) :
    (replace τ (replace σ e).value).value = e := by
  apply hσ.atomic.replace_restore hinverse _ he
  · intro x _ hx hnone
    cases hcase : τ x with
    | none => rfl
    | some b =>
      obtain ⟨s, rfl⟩ := hτ x b hcase
      rw [← hcase, hfresh s hx hnone]
  · intro a b hab
    obtain ⟨s, rfl⟩ := hτ a b hab
    rfl

end Naming

namespace Composes

variable {σ τ σ' : Expr → Option Expr}

theorem fits_replace (hσ : Naming σ) (hσ' : Atomic σ') {e : Expr} (he : e.Canonical)
    (h : Composes σ τ σ' e) (hwords : e.Words) :
    (replace τ (replace σ e).value).fits = true := by
  have hargs {e : Expr} {us : List Expr} (he : e.Canonical) (h : Composes σ τ σ' e)
      (hperm : us.Perm (e.args.map fun a => (replace σ a).value)) :
      (us.map fun u => (replace τ u).value).Perm (e.args.map fun a => (replace σ' a).value) := by
    apply (hperm.map _).trans (.of_eq _)
    rw [List.map_map]
    exact List.map_congr_left fun a ha => (h.of_mem_args ha).value_replace hσ (he.of_mem_args ha)
  have hnumbers {e : Expr} {vs : List Expr} (he : e.Canonical) (hwords : e.Words)
      (hperm : vs.Perm (e.args.map fun a => (replace σ' a).value)) :
      ∀ q, num q ∈ vs → Fraction.isWords q = true := by
    intro q hq
    obtain ⟨a, ha, heq⟩ := List.mem_map.1 (hperm.mem_iff.1 hq)
    have hkept := (hσ'.kept_replace (he.of_mem_args ha)).number (by rw [heq]; rfl)
    rw [heq] at hkept
    exact hwords q (.arg ha (hkept ▸ .self))
  have hlist {e : Expr} {us : List Expr} (h : Composes σ τ σ' e) (hwords : e.Words)
      (hperm : us.Perm (e.args.map fun a => (replace σ a).value))
      (ih : ∀ a ∈ e.args, Composes σ τ σ' a → a.Words →
        (replace τ (replace σ a).value).fits = true) : (replaceList τ us).fits = true := by
    rw [fits_replaceList]
    intro u hu
    obtain ⟨a, ha, rfl⟩ := List.mem_map.1 (hperm.mem_iff.1 hu)
    exact ih a ha (h.of_mem_args ha) (hwords.of_within (.arg ha .self))
  have hcases {e : Expr} (hnone : τ e = none → (replace τ e).fits = true) :
      (replace τ e).fits = true := by
    cases hτ : τ e with
    | none => exact hnone hτ
    | some b => exact fits_replace_of_some hτ
  refine hσ.induct (motive := fun e e' =>
    Composes σ τ σ' e → e.Words → (replace τ e').fits = true)
    ?found ?leaf ?add ?mul ?pow ?call e he h hwords
  case found => exact fun _ _ _ _ _ => fits_replace_of_leaf rfl
  case leaf => exact fun _ _ _ hleaf _ _ => fits_replace_of_leaf hleaf
  case add =>
    intro ts us hts _ _ hperm ih h hwords
    have hvalues := hargs hts h hperm
    apply hcases
    intro hτ
    simp only [replace, hτ, Checked.fits_bind, value_replaceList, Bool.and_eq_true]
    refine ⟨hlist h hwords hperm ih, fits_sum ?_ (hnumbers hts hwords hvalues)⟩
    rw [sort_congr hvalues]
    cases hts with
    | add hts harguments =>
      exact harguments.map (fun t ht => (hσ'.kept_replace (hts t ht)).sum)
        fun t ht => (hσ'.kept_replace (hts t ht)).number
  case mul =>
    intro fs gs hfs _ _ hperm ih h hwords
    have hvalues := hargs hfs h hperm
    apply hcases
    intro hτ
    simp only [replace, hτ, Checked.fits_bind, value_replaceList, Bool.and_eq_true]
    refine ⟨hlist h hwords hperm ih, fits_product ?_ (hnumbers hfs hwords hvalues)⟩
    rw [sort_congr hvalues]
    cases hfs with
    | mul hfs harguments =>
      exact harguments.map (fun f hf => (hσ'.kept_replace (hfs f hf)).product)
        fun f hf => (hσ'.kept_replace (hfs f hf)).number
  case pow =>
    intro b n hpow _ _ ih h hwords
    have hb : b ∈ (Expr.pow b n).args := List.mem_singleton_self b
    apply hcases
    intro hτ
    simp only [replace, hτ, Checked.fits_bind, Bool.and_eq_true]
    refine ⟨ih (h.of_mem_args hb) (hwords.of_within (.arg hb .self)), fits_power ?_⟩
    rw [(h.of_mem_args hb).value_replace hσ (hpow.of_mem_args hb)]
    intro q hq
    cases hpow with
    | pow hb _ hnum =>
      apply hnum
      rw [← hq, (hσ'.kept_replace hb).number (by rw [hq]; rfl)]
  case call =>
    intro s as _ _ _ ih h hwords
    apply hcases
    intro hτ
    simp only [replace, hτ, Checked.fits_bind, Checked.fits_pure, Bool.and_true]
    exact hlist h hwords (.refl _) ih

end Composes

theorem Atomic.fits_replace {σ : Expr → Option Expr} (hσ : Atomic σ) {e : Expr}
    (he : e.Canonical) (hwords : e.Words) : (replace σ e).fits = true := by
  have hcomposes : Composes (fun _ => none) σ σ e := by
    constructor
    · intro a s _ hs
      cases hs
    · intro a ha _
      rw [value_replace_none (he.of_within ha)]
  have hfits := hcomposes.fits_replace naming_none hσ he hwords
  rwa [value_replace_none he] at hfits

end Expr

end Stencil
