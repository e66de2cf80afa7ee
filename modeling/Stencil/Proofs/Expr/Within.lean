import Stencil.Expr.Traverse
import Stencil.Proofs.Expr.Denote

/-!
This module contains the subexpressions that a value is computed from. The scalars, the array
elements and the operations of an expression are those that stand within it, but for what occurs in
index functions only. Building expressions makes no scalars and array elements that were not there
before, and the value of an expression depends on no others.
-/

namespace Stencil

namespace Expr

/-- `x` is `e` itself or stands in it, outside of index functions. -/
inductive Within (x : Expr) : Expr → Prop
  | self : Within x x
  | arg {e a : Expr} (ha : a ∈ e.args) (h : Within x a) : Within x e

theorem within_iff {x e : Expr} : x.Within e ↔ x = e ∨ ∃ a ∈ e.args, x.Within a := by
  constructor
  · rintro (_ | ⟨ha, h⟩)
    · exact .inl rfl
    · exact .inr ⟨_, ha, h⟩
  · rintro (rfl | ⟨a, ha, h⟩)
    · exact .self
    · exact .arg ha h

theorem Within.trans {x y z : Expr} (hxy : x.Within y) (hyz : y.Within z) : x.Within z := by
  induction hyz with
  | self => exact hxy
  | arg ha _ ih => exact .arg ha ih

theorem Within.eq_of_args {x e : Expr} (h : x.Within e) (he : e.args = []) : x = e := by
  rcases within_iff.1 h with rfl | ⟨a, ha, _⟩
  · rfl
  · rw [he] at ha
    cases ha

section Arguments

attribute [local simp] isOperation args references symbols valueSymbols valueReferences operations

theorem referencesOfList_eq_flatMap (es : List Expr) :
    referencesOfList es = es.flatMap references := by
  induction es with
  | nil => rfl
  | cons e es ih => rw [referencesOfList, ih, List.flatMap_cons]

theorem symbolsOfList_eq_flatMap (es : List Expr) : symbolsOfList es = es.flatMap symbols := by
  induction es with
  | nil => rfl
  | cons e es ih => rw [symbolsOfList, ih, List.flatMap_cons]

theorem valueSymbolsOfList_eq_flatMap (es : List Expr) :
    valueSymbolsOfList es = es.flatMap valueSymbols := by
  induction es with
  | nil => rfl
  | cons e es ih => rw [valueSymbolsOfList, ih, List.flatMap_cons]

theorem valueReferencesOfList_eq_flatMap (es : List Expr) :
    valueReferencesOfList es = es.flatMap valueReferences := by
  induction es with
  | nil => rfl
  | cons e es ih => rw [valueReferencesOfList, ih, List.flatMap_cons]

theorem operationsOfList_eq_flatMap (es : List Expr) :
    operationsOfList es = es.flatMap operations := by
  induction es with
  | nil => rfl
  | cons e es ih => rw [operationsOfList, ih, List.flatMap_cons]

theorem mem_referencesOfList {es : List Expr} {r : Reference} :
    r ∈ referencesOfList es ↔ ∃ e ∈ es, r ∈ e.references := by
  rw [referencesOfList_eq_flatMap, List.mem_flatMap]

theorem mem_symbolsOfList {es : List Expr} {s : String} :
    s ∈ symbolsOfList es ↔ ∃ e ∈ es, s ∈ e.symbols := by
  rw [symbolsOfList_eq_flatMap, List.mem_flatMap]

theorem valueSymbols_eq {e : Expr} (he : e.isOperation = true) :
    e.valueSymbols = e.args.flatMap valueSymbols := by
  cases e <;> simp_all [valueSymbolsOfList_eq_flatMap]

theorem valueReferences_eq {e : Expr} (he : e.isOperation = true) :
    e.valueReferences = e.args.flatMap valueReferences := by
  cases e <;> simp_all [valueReferencesOfList_eq_flatMap]

theorem operations_eq {e : Expr} (he : e.isOperation = true) :
    e.operations = e :: e.args.flatMap operations := by
  cases e <;> simp_all [operationsOfList_eq_flatMap]

theorem references_eq {e : Expr} (he : e.isOperation = true) :
    e.references = e.args.flatMap references := by
  cases e <;> simp_all [referencesOfList_eq_flatMap]

theorem symbols_eq {e : Expr} (he : e.isOperation = true) :
    e.symbols = e.args.flatMap symbols := by
  cases e <;> simp_all [symbolsOfList_eq_flatMap]

theorem args_eq_nil {e : Expr} (he : e.isOperation = false) : e.args = [] := by
  cases e <;> simp_all

end Arguments

theorem args_induct {motive : Expr → Prop}
    (leaf : ∀ e, e.isOperation = false → motive e)
    (operation : ∀ e, e.isOperation = true → (∀ a ∈ e.args, motive a) → motive e)
    (e : Expr) : motive e := by
  induction e with
  | num q => exact leaf _ rfl
  | sym s => exact leaf _ rfl
  | access f is => exact leaf _ rfl
  | add ts ih => exact operation _ rfl ih
  | mul fs ih => exact operation _ rfl ih
  | pow b n ih => exact operation _ rfl (List.forall_mem_singleton.2 ih)
  | call s as ih => exact operation _ rfl ih

theorem mem_valueSymbols {e : Expr} {s : String} : s ∈ e.valueSymbols ↔ (sym s).Within e := by
  induction e using args_induct with
  | leaf e he =>
    rw [within_iff, args_eq_nil he]
    cases e <;> simp_all [valueSymbols, isOperation]
  | operation e he ih =>
    have hne : sym s ≠ e := by
      rintro rfl
      cases he
    rw [valueSymbols_eq he, within_iff, List.mem_flatMap]
    simp only [hne, false_or]
    exact exists_congr fun a => and_congr_right fun ha => ih a ha

theorem mem_valueReferences {e : Expr} {r : Reference} :
    r ∈ e.valueReferences ↔ r.toExpr.Within e := by
  induction e using args_induct with
  | leaf e he =>
    rw [within_iff, args_eq_nil he]
    cases e <;> cases r <;> simp_all [valueReferences, isOperation, Reference.toExpr]
  | operation e he ih =>
    have hne : r.toExpr ≠ e := by
      rintro rfl
      cases he
    rw [valueReferences_eq he, within_iff, List.mem_flatMap]
    simp only [hne, false_or]
    exact exists_congr fun a => and_congr_right fun ha => ih a ha

theorem mem_operations {e o : Expr} : o ∈ e.operations ↔ o.isOperation = true ∧ o.Within e := by
  induction e using args_induct with
  | leaf e he =>
    rw [within_iff, args_eq_nil he]
    cases e <;> simp_all [operations, isOperation]
    all_goals
      rintro ho rfl
      cases ho
  | operation e he ih =>
    rw [operations_eq he, within_iff, List.mem_cons, List.mem_flatMap]
    constructor
    · rintro (rfl | ⟨a, ha, ho⟩)
      · exact ⟨he, .inl rfl⟩
      · exact ⟨((ih a ha).1 ho).1, .inr ⟨a, ha, ((ih a ha).1 ho).2⟩⟩
    · rintro ⟨ho, rfl | ⟨a, ha, hwithin⟩⟩
      · exact .inl rfl
      · exact .inr ⟨a, ha, (ih a ha).2 ⟨ho, hwithin⟩⟩

theorem mem_references {e : Expr} {r : Reference} :
    r ∈ e.references ↔ ∃ f is, (access f is).Within e ∧ r ∈ (access f is).references := by
  induction e using args_induct with
  | leaf e he =>
    simp only [fun x => within_iff (x := x) (e := e), args_eq_nil he]
    cases e <;> simp_all [references, isOperation]
  | operation e he ih =>
    rw [references_eq he, List.mem_flatMap]
    constructor
    · rintro ⟨a, ha, hr⟩
      obtain ⟨f, is, hwithin, hr⟩ := (ih a ha).1 hr
      exact ⟨f, is, .arg ha hwithin, hr⟩
    · rintro ⟨f, is, hwithin, hr⟩
      rcases within_iff.1 hwithin with rfl | ⟨a, ha, hwithin⟩
      · cases he
      · exact ⟨a, ha, (ih a ha).2 ⟨f, is, hwithin, hr⟩⟩

theorem mem_symbols {e : Expr} {s : String} :
    s ∈ e.symbols ↔ s ∈ e.valueSymbols ∨ ∃ r ∈ e.references, s ∈ symbolsOfList r.indices := by
  have hoperation {e : Expr} (he : e.isOperation = true)
      (ih : ∀ a ∈ e.args, s ∈ a.symbols ↔
        s ∈ a.valueSymbols ∨ ∃ r ∈ a.references, s ∈ symbolsOfList r.indices) :
      s ∈ e.symbols ↔
        s ∈ e.valueSymbols ∨ ∃ r ∈ e.references, s ∈ symbolsOfList r.indices := by
    rw [symbols_eq he, valueSymbols_eq he, references_eq he]
    simp only [List.mem_flatMap]
    constructor
    · rintro ⟨a, ha, hs⟩
      rcases (ih a ha).1 hs with hs | ⟨r, hr, hs⟩
      · exact .inl ⟨a, ha, hs⟩
      · exact .inr ⟨r, ⟨a, ha, hr⟩, hs⟩
    · rintro (⟨a, ha, hs⟩ | ⟨r, ⟨a, ha, hr⟩, hs⟩)
      · exact ⟨a, ha, (ih a ha).2 (.inl hs)⟩
      · exact ⟨a, ha, (ih a ha).2 (.inr ⟨r, hr, hs⟩)⟩
  induction e with
  | num q => simp [symbols, valueSymbols, references]
  | sym t => simp [symbols, valueSymbols, references]
  | access f is _ ih =>
    rw [symbols, valueSymbols, references]
    constructor
    · exact fun hs => .inr ⟨⟨f, is⟩, List.mem_cons_self .., hs⟩
    · rintro (hs | ⟨r, hr, hs⟩)
      · cases hs
      · rcases List.mem_cons.1 hr with rfl | hr
        · exact hs
        · obtain ⟨i, hi, hr⟩ := mem_referencesOfList.1 hr
          exact mem_symbolsOfList.2 ⟨i, hi, (ih i hi).2 (.inr ⟨r, hr, hs⟩)⟩
  | add ts ih => exact hoperation rfl ih
  | mul fs ih => exact hoperation rfl ih
  | pow b n ih => exact hoperation rfl (List.forall_mem_singleton.2 ih)
  | call t as ih => exact hoperation rfl ih

def isAtom : Expr → Bool
  | sym _ => true
  | access _ _ => true
  | _ => false

theorem Within.of_mem_terms {x e t : Expr} (h : x.Within t) (ht : t ∈ e.terms) : x.Within e := by
  cases e with
  | add ts => exact .arg ht h
  | _ =>
    obtain rfl := List.mem_singleton.1 ht
    exact h

theorem Within.of_mem_factors {x e f : Expr} (h : x.Within f) (hf : f ∈ e.factors) :
    x.Within e := by
  cases e with
  | mul fs => exact .arg hf h
  | _ =>
    obtain rfl := List.mem_singleton.1 hf
    exact h

section Build

variable {x : Expr} (hx : x.isAtom = true)

include hx

theorem exists_within_of_mem_sort {es : List Expr} {c : Rat} {p : Prop} [Decidable p] {e : Expr}
    (he : e ∈ sort (if p then es else es ++ [num c])) (h : x.Within e) :
    ∃ e ∈ es, x.Within e := by
  have hmem := (sort_perm _).mem_iff.1 he
  split at hmem
  · exact ⟨e, hmem, h⟩
  · rcases List.mem_append.1 hmem with hmem | hmem
    · exact ⟨e, hmem, h⟩
    · rw [List.mem_singleton.1 hmem] at h
      rw [h.eq_of_args rfl] at hx
      cases hx

theorem exists_within_of_ofTerms {c : Rat} {ts : List Expr} (h : x.Within (ofTerms c ts)) :
    ∃ t ∈ ts, x.Within t := by
  unfold ofTerms at h
  split at h
  · rw [h.eq_of_args rfl] at hx
    cases hx
  · next hsort => exact exists_within_of_mem_sort hx (hsort ▸ List.mem_singleton_self _) h
  · rcases within_iff.1 h with rfl | ⟨t, ht, h⟩
    · cases hx
    · exact exists_within_of_mem_sort hx ht h

theorem exists_within_of_ofFactors {c : Rat} {fs : List Expr} (h : x.Within (ofFactors c fs)) :
    ∃ f ∈ fs, x.Within f := by
  unfold ofFactors at h
  split at h
  · rw [h.eq_of_args rfl] at hx
    cases hx
  · split at h
    · rw [h.eq_of_args rfl] at hx
      cases hx
    · next hsort => exact exists_within_of_mem_sort hx (hsort ▸ List.mem_singleton_self _) h
    · rcases within_iff.1 h with rfl | ⟨f, hf, h⟩
      · cases hx
      · exact exists_within_of_mem_sort hx hf h

theorem exists_within_of_sum {es : List Expr} (h : x.Within (sum es).value) :
    ∃ e ∈ es, x.Within e := by
  obtain ⟨t, ht, h⟩ := exists_within_of_ofTerms hx h
  obtain ⟨e, he, ht⟩ := List.mem_flatMap.1 (List.mem_of_mem_filter ht)
  exact ⟨e, he, h.of_mem_terms ht⟩

theorem exists_within_of_product {es : List Expr} (h : x.Within (product es).value) :
    ∃ e ∈ es, x.Within e := by
  obtain ⟨f, hf, h⟩ := exists_within_of_ofFactors hx h
  obtain ⟨e, he, hf⟩ := List.mem_flatMap.1 (List.mem_of_mem_filter hf)
  exact ⟨e, he, h.of_mem_factors hf⟩

theorem within_of_power {b : Expr} {n : Int} (h : x.Within (power b n).value) : x.Within b := by
  have hpow {b : Expr} (h : x.Within (pow b n)) : x.Within b := by
    rcases within_iff.1 h with rfl | ⟨a, ha, h⟩
    · cases hx
    · rwa [List.mem_singleton.1 ha] at h
  unfold power at h
  split at h
  · rw [h.eq_of_args rfl] at hx
    cases hx
  · split at h
    · exact h
    · split at h
      · split at h
        · rw [h.eq_of_args rfl] at hx
          cases hx
        · exact hpow h
      · exact hpow h

end Build

section Congruence

variable {K : Type} [Field K] [DecidableEq K] {I J : Interpretation K} {ρ ρ' : String → K}

theorem denote_congr (hcall : I.call = J.call) (hpole : I.pole = J.pole) (e : Expr)
    (hscalar : ∀ s ∈ e.symbols, ρ s = ρ' s)
    (helement : ∀ r ∈ e.references,
      I.element r.function r.indices (r.indices.map (denote I ρ)) =
        J.element r.function r.indices (r.indices.map (denote I ρ))) :
    e.denote I ρ = e.denote J ρ' := by
  have hmap {es : List Expr}
      (ih : ∀ e ∈ es, (∀ s ∈ e.symbols, ρ s = ρ' s) →
        (∀ r ∈ e.references, I.element r.function r.indices (r.indices.map (denote I ρ)) =
          J.element r.function r.indices (r.indices.map (denote I ρ))) →
        e.denote I ρ = e.denote J ρ')
      (hscalar : ∀ s ∈ symbolsOfList es, ρ s = ρ' s)
      (helement : ∀ r ∈ referencesOfList es,
        I.element r.function r.indices (r.indices.map (denote I ρ)) =
          J.element r.function r.indices (r.indices.map (denote I ρ))) :
      es.map (denote I ρ) = es.map (denote J ρ') := by
    apply List.map_congr_left
    intro e he
    apply ih e he
    · exact fun s hs => hscalar s (mem_symbolsOfList.2 ⟨e, he, hs⟩)
    · exact fun r hr => helement r (mem_referencesOfList.2 ⟨e, he, hr⟩)
  induction e with
  | num q => rfl
  | sym s => exact hscalar s (List.mem_singleton_self s)
  | access f is _ ih =>
    rw [references, List.forall_mem_cons] at helement
    simp only [denote, denoteAll_eq_map]
    rw [helement.1, hmap ih hscalar helement.2]
  | add ts ih => simp only [denote, denoteAll_eq_map, hmap ih hscalar helement]
  | mul fs ih => simp only [denote, denoteAll_eq_map, hmap ih hscalar helement]
  | pow b n ih =>
    simp only [denote, ih hscalar helement, Interpretation.power, hpole]
  | call s as ih => simp only [denote, denoteAll_eq_map, hmap ih hscalar helement, hcall]

end Congruence

end Expr

end Stencil
