import Stencil.Expr.Text
import Stencil.Proofs.Affine.Arithmetic
import Stencil.Proofs.Expr.Naming
import Stencil.Proofs.Numerals

/-!
This module contains what the text of an expression is put together from. The text is a row of
summands with signs between them, a summand is a row of items that are multiplied, and an item is a
number or a base with an exponent. This describes the texts of canonical expressions in which no sum
is subtracted: a sum that is subtracted is written without brackets, so its terms look like terms of
the sum around it.
-/

namespace Stencil

namespace Expr

/-- A name begins with no digit and has nothing in it that belongs to an operation. -/
def IsName (s : String) : Prop :=
  (∃ c cs, s.toList = c :: cs ∧ c.isDigit = false) ∧
    ∀ c ∈ s.toList, c ∉ [' ', '(', ')', '*', '+', '-', '/']

theorem isName_of_isAlpha {s : String} (hne : s ≠ "") (h : s.toList.all Char.isAlpha = true) :
    IsName s := by
  have hdigit {c : Char} (hc : c.isAlpha = true) : c.isDigit = false := by
    have hcode : decide (c.val ≥ 'A'.val ∧ c.val ≤ 'Z'.val) = true ∨
        (decide (c.val ≥ 'a'.val) && decide (c.val ≤ 'z'.val)) = true :=
      Bool.or_eq_true_iff.1 hc
    change (decide (c.val ≥ '0'.val) && decide (c.val ≤ '9'.val)) = false
    grind
  have hnot : [' ', '(', ')', '*', '+', '-', '/'].any Char.isAlpha = false := rfl
  rw [List.all_eq_true] at h
  obtain ⟨c, cs, hcons⟩ := List.exists_cons_of_ne_nil (mt String.toList_eq_nil_iff.1 hne)
  refine ⟨⟨c, cs, hcons, hdigit (h c (by rw [hcons]; exact List.mem_cons_self ..))⟩, ?_⟩
  intro c hc hmem
  exact List.any_eq_false.1 hnot c hmem (h c hc)

/-- The expressions of arithmetic: numbers and scalars, and sums, products and powers of them. -/
inductive Arithmetic : Expr → Prop
  | num (q : Rat) : Arithmetic (num q)
  | sym {s : String} (hs : IsName s) : Arithmetic (sym s)
  | add {ts : List Expr} (hts : ∀ t ∈ ts, Arithmetic t) : Arithmetic (add ts)
  | mul {fs : List Expr} (hfs : ∀ f ∈ fs, Arithmetic f) : Arithmetic (mul fs)
  | pow {b : Expr} {n : Int} (hb : Arithmetic b) : Arithmetic (pow b n)

/--
Somewhere in `e` a sum is subtracted from what stands in front of it. The first term of a sum is
not subtracted, whatever its sign.
-/
def SubtractsSum (e : Expr) : Prop :=
  ∃ ts us, (add ts).Within e ∧ mul [num (-1), add us] ∈ (others ts).tail

/-- The expressions of arithmetic whose texts say where each sum ends. -/
structure Legible (e : Expr) : Prop where
  canonical : e.Canonical
  arithmetic : e.Arithmetic
  not_subtracts : ¬e.SubtractsSum

theorem Arithmetic.of_mem_args {e a : Expr} (h : e.Arithmetic) (ha : a ∈ e.args) :
    a.Arithmetic := by
  cases h with
  | add hts => exact hts a ha
  | mul hfs => exact hfs a ha
  | pow hb => rwa [List.mem_singleton.1 ha]
  | _ => cases ha

theorem Legible.of_mem_args {e a : Expr} (h : e.Legible) (ha : a ∈ e.args) : a.Legible where
  canonical := h.canonical.of_mem_args ha
  arithmetic := h.arithmetic.of_mem_args ha
  not_subtracts := by
    rintro ⟨ts, us, hwithin, hmem⟩
    exact h.not_subtracts ⟨ts, us, .arg ha hwithin, hmem⟩

theorem legible_num (q : Rat) : (num q).Legible where
  canonical := .num q
  arithmetic := .num q
  not_subtracts := by
    rintro ⟨ts, us, hwithin, -⟩
    cases hwithin.eq_of_args rfl

def baseChars : Expr → List Char
  | sym s => s.toList
  | b => '(' :: (b.text.value.toList ++ [')'])

def exponentChars : Option Int → List Char
  | none => []
  | some n => '*' :: '*' :: (toString n).toList

/-- A part of a product: a number, or a base with an exponent. -/
inductive Item where
  | number (q : Rat)
  | power (base : Expr) (exponent : Option Int)

namespace Item

def chars : Item → List Char
  | number q => (Fraction.text q).toList
  | power b n => baseChars b ++ exponentChars n

def ofFactor : Expr → Item
  | pow b n => power b (some n)
  | e => power e none

def factor? : Item → Option Expr
  | number _ => none
  | power (num _) none => none
  | power b none => some b
  | power b (some n) => some (pow b n)

def coefficient : List Item → Rat
  | number q :: _ => q
  | power (num q) none :: _ => q
  | _ => 1

theorem factor?_ofFactor {f : Expr} (h : f.isNumber = false) : (ofFactor f).factor? = some f := by
  cases f with
  | num q => cases h
  | pow b n => cases b <;> rfl
  | _ => rfl

theorem filterMap_factor?_ofFactor {fs : List Expr} (h : ∀ f ∈ fs, f.isNumber = false) :
    (fs.map ofFactor).filterMap factor? = fs := by
  rw [List.filterMap_map]
  calc fs.filterMap (factor? ∘ ofFactor)
    _ = fs.filterMap some := List.filterMap_congr fun f hf => factor?_ofFactor (h f hf)
    _ = fs := List.filterMap_some

theorem coefficient_ofFactor {f : Expr} (h : f.isNumber = false) (is : List Item) :
    coefficient (ofFactor f :: is) = 1 := by
  cases f with
  | num q => cases h
  | pow b n => cases b <;> rfl
  | _ => rfl

def ofProduct (c : Rat) (fs : List Expr) : List Item :=
  if fs = [] then
    [number c]
  else if c = 1 then
    fs.map ofFactor
  else if c.den = 1 then
    number c :: fs.map ofFactor
  else
    power (num c) none :: fs.map ofFactor

theorem ofProduct_ne_nil (c : Rat) (fs : List Expr) : ofProduct c fs ≠ [] := by
  unfold ofProduct
  split
  · simp
  · split
    · next hne _ => simpa using hne
    · split <;> simp

theorem coefficient_ofProduct (c : Rat) {fs : List Expr} (h : ∀ f ∈ fs, f.isNumber = false) :
    coefficient (ofProduct c fs) = c := by
  unfold ofProduct
  split
  · rfl
  · split
    · next hne hc =>
      obtain ⟨f, fs, rfl⟩ := List.exists_cons_of_ne_nil hne
      rw [List.map_cons, coefficient_ofFactor (h f (List.mem_cons_self ..)), hc]
    · split <;> rfl

theorem filterMap_ofProduct (c : Rat) {fs : List Expr} (h : ∀ f ∈ fs, f.isNumber = false) :
    (ofProduct c fs).filterMap factor? = fs := by
  unfold ofProduct
  split
  · next hnil => rw [hnil]; rfl
  · split
    · exact filterMap_factor?_ofFactor h
    · split
      · exact filterMap_factor?_ofFactor h
      · exact filterMap_factor?_ofFactor h

theorem ofProduct_inj {c d : Rat} {fs gs : List Expr} (hfs : ∀ f ∈ fs, f.isNumber = false)
    (hgs : ∀ g ∈ gs, g.isNumber = false) (h : ofProduct c fs = ofProduct d gs) :
    c = d ∧ fs = gs := by
  constructor
  · rw [← coefficient_ofProduct c hfs, h, coefficient_ofProduct d hgs]
  · rw [← filterMap_ofProduct c hfs, h, filterMap_ofProduct d hgs]

def joined (is : List Item) : List Char := ['*'].intercalate (is.map chars)

theorem joined_cons (i : Item) (is : List Item) :
    joined (i :: is) = i.chars ++ is.flatMap fun i => '*' :: i.chars := by
  induction is generalizing i with
  | nil => simp [joined]
  | cons j is ih =>
    rw [joined, List.map_cons, List.map_cons, List.intercalate_cons_cons, ← List.map_cons,
      ← joined, ih, List.flatMap_cons]
    simp

end Item

/-- A term of a sum as the product of a number and of factors that are none. -/
structure Summand where
  coefficient : Rat
  factors : List Expr

namespace Summand

def ofExpr (e : Expr) : Summand := ⟨(numbers e.factors).prod, others e.factors⟩

def isSigned (s : Summand) : Bool :=
  decide (s.coefficient < 0 ∧ (s.factors = [] ∨ s.coefficient.den = 1))

def items (signed : Bool) (s : Summand) : List Item :=
  Item.ofProduct (if signed then -s.coefficient else s.coefficient) s.factors

def chars (s : Summand) : List Char :=
  (if s.isSigned then ['-'] else []) ++ Item.joined (s.items s.isSigned)

def isSubtracted (s : Summand) : Bool := decide (s.coefficient < 0)

def addedChars (s : Summand) : List Char :=
  (if s.isSubtracted then [' ', '-', ' '] else [' ', '+', ' ']) ++
    Item.joined (s.items s.isSubtracted)

end Summand

def rowChars : List Summand → List Char
  | [] => []
  | s :: ss => s.chars ++ ss.flatMap Summand.addedChars

def writtenTerms (e : Expr) : List Expr := others e.terms ++ e.terms.filter isNumber

section Arguments

variable {nested : Expr → Bool} {trivial : List Rat} {e : Expr} {es : List Expr}

theorem Arguments.not_number (h : Arguments nested trivial (e :: es)) (he : e.isNumber = false) :
    ∀ f ∈ e :: es, f.isNumber = false := by
  intro f hf
  rcases List.mem_cons.1 hf with rfl | hf
  · exact he
  · have hle := (List.pairwise_cons.1 h.sorted).1 f hf
    cases hnumber : f.isNumber with
    | false => rfl
    | true =>
      obtain ⟨q, rfl⟩ := isNumber_iff.1 hnumber
      cases e with
      | num p => cases he
      | _ => cases hle

theorem Arguments.not_number_of_num {c : Rat} (h : Arguments nested trivial (num c :: es)) :
    ∀ f ∈ es, f.isNumber = false := by
  have hle := h.numbers_le
  rw [List.filter_cons_of_pos rfl, List.length_cons] at hle
  have hnil : es.filter isNumber = [] := List.length_eq_zero_iff.1 (by omega)
  intro f hf
  simpa using List.filter_eq_nil_iff.1 hnil f hf

end Arguments

theorem numbers_eq_nil {es : List Expr} (h : ∀ e ∈ es, e.isNumber = false) : numbers es = [] :=
  List.filterMap_eq_nil_iff.2 fun e he => number?_eq_none (h e he)

theorem others_eq_self {es : List Expr} (h : ∀ e ∈ es, e.isNumber = false) : others es = es :=
  List.filter_eq_self.2 fun e he => by simp [h e he]

namespace Summand

theorem ofExpr_num (q : Rat) : ofExpr (num q) = ⟨q, []⟩ := by
  have hprod : (numbers [num q]).prod = q := List.prod_singleton
  exact congrArg (Summand.mk · []) hprod

theorem ofExpr_single {e : Expr} (hproduct : e.isProduct = false) (hnumber : e.isNumber = false) :
    ofExpr e = ⟨1, [e]⟩ := by
  have hnot : ∀ f ∈ [e], f.isNumber = false := List.forall_mem_singleton.2 hnumber
  rw [ofExpr, factors_of_not_product hproduct, numbers_eq_nil hnot, others_eq_self hnot]
  rfl

theorem ofExpr_mul_num {c : Rat} {fs : List Expr} (h : Canonical (mul (num c :: fs))) :
    ofExpr (mul (num c :: fs)) = ⟨c, fs⟩ := by
  cases h with
  | mul _ h =>
    have hnot := h.not_number_of_num
    have hnumbers : numbers (num c :: fs) = [c] := by
      rw [numbers_cons_num, numbers_eq_nil hnot]
    rw [ofExpr, Expr.factors, hnumbers, others_cons_num, others_eq_self hnot]
    exact congrArg (Summand.mk · fs) List.prod_singleton

theorem ofExpr_mul {f : Expr} {fs : List Expr} (h : Canonical (mul (f :: fs)))
    (hf : f.isNumber = false) : ofExpr (mul (f :: fs)) = ⟨1, f :: fs⟩ := by
  cases h with
  | mul _ h =>
    have hnot := h.not_number hf
    rw [ofExpr, Expr.factors, numbers_eq_nil hnot, others_eq_self hnot]
    rfl

theorem chars_of_nonneg {c : Rat} (hc : 0 ≤ c) (fs : List Expr) :
    chars ⟨c, fs⟩ = Item.joined (Item.ofProduct c fs) := by
  have hsigned : isSigned ⟨c, fs⟩ = false := by simp [isSigned, not_lt.2 hc]
  rw [chars, items, hsigned]
  rfl

theorem addedChars_of_nonneg {s : Summand} (hs : 0 ≤ s.coefficient) :
    s.addedChars = [' ', '+', ' '] ++ s.chars := by
  have hsubtracted : s.isSubtracted = false := by simp [isSubtracted, hs]
  rw [addedChars, hsubtracted, chars_of_nonneg hs]
  rfl

theorem addedChars_of_neg {s : Summand} (hs : s.coefficient < 0) :
    s.addedChars = [' ', '-', ' '] ++ Item.joined (Item.ofProduct (-s.coefficient) s.factors) := by
  have hsubtracted : s.isSubtracted = true := by simp [isSubtracted, hs]
  rw [addedChars, hsubtracted]
  rfl

theorem chars_single (e : Expr) : chars ⟨1, [e]⟩ = (Item.ofFactor e).chars := by
  rw [chars_of_nonneg zero_le_one]
  simp [Item.ofProduct, Item.joined]

end Summand

def factorText (f : Expr) : String := bracketFactor f f.text.value

def FactorText.ofFactor (f : Expr) : FactorText := ⟨f, f.text⟩

theorem factorTexts_eq_map (fs : List Expr) : factorTexts fs = fs.map .ofFactor := by
  induction fs with
  | nil => rfl
  | cons f fs ih =>
    rw [factorTexts, List.map_cons, ih]
    rfl

theorem value_mapM_bracketed (fs : List Expr) :
    ((fs.map .ofFactor).mapM FactorText.bracketed).value = fs.map factorText := by
  rw [Checked.value_mapM, List.map_map]
  rfl

theorem value_text_mul_num (c : Rat) (fs : List Expr) :
    (mul (num c :: fs)).text.value = productText c (fs.map factorText) := by
  rw [text, factorTexts_eq_map, ← value_mapM_bracketed]
  rfl

theorem value_text_mul {f : Expr} (hf : f.isNumber = false) (fs : List Expr) :
    (mul (f :: fs)).text.value = "*".intercalate ((f :: fs).map factorText) := by
  rw [text, factorTexts_eq_map, ← value_mapM_bracketed]
  cases f with
  | num q => cases hf
  | _ => rfl

theorem insertBy_map {α β : Type} (g : α → β) (le : β → β → Bool) (a : α) (as : List α) :
    insertBy le (g a) (as.map g) = (insertBy (fun a b => le (g a) (g b)) a as).map g := by
  induction as with
  | nil => rfl
  | cons b as ih =>
    rw [List.map_cons, insertBy, insertBy, ih]
    split <;> rfl

theorem sortBy_map {α β : Type} (g : α → β) (le : β → β → Bool) (as : List α) :
    sortBy le (as.map g) = (sortBy (fun a b => le (g a) (g b)) as).map g := by
  induction as with
  | nil => rfl
  | cons a as ih =>
    unfold sortBy at ih ⊢
    rw [List.map_cons, List.foldr_cons, List.foldr_cons, ih, insertBy_map]

theorem text_ofFactors (c : Rat) (fs : List Expr) :
    (ofFactors c fs).text = ofFactorsText c (fs.map .ofFactor) := by
  unfold ofFactors ofFactorsText
  split
  · rw [text]
  · have hnumber : (if c = 1 then fs.map .ofFactor
          else fs.map .ofFactor ++ [⟨num c, pure (Fraction.text c)⟩]) =
        (if c = 1 then fs else fs ++ [num c]).map FactorText.ofFactor := by
      split
      · rfl
      · rw [List.map_append, List.map_singleton, FactorText.ofFactor, text]
    have hsort (es : List Expr) : sortBy (fun f g => (Expr.cmp f.factor g.factor).isLE)
        (es.map FactorText.ofFactor) = (sort es).map .ofFactor := sortBy_map ..
    rw [hnumber, hsort]
    rcases sort (if c = 1 then fs else fs ++ [num c]) with _ | ⟨f, _ | ⟨g, fs⟩⟩
    · simp [text]
    · rfl
    · rw [text, factorTexts_eq_map]
      rfl

theorem negatedText_mul (fs : List Expr) :
    (mul fs).negatedText = (mul fs).neg >>= text := by
  have hfactors : [num (-1), mul fs].flatMap factors = num (-1) :: fs := by simp [factors]
  have hfilter : (factorTexts fs).filter (!·.factor.isNumber) =
      (others (num (-1) :: fs)).map .ofFactor := by
    rw [factorTexts_eq_map, List.filter_map]
    rfl
  rw [negatedText, neg, product, hfactors, bind_assoc, hfilter]
  apply bind_congr
  intro c
  rw [pure_bind, text_ofFactors]
  rfl

theorem toList_text_pow {b : Expr} {n : Int} (hb : b.Arithmetic) :
    (pow b n).text.value.toList = (Item.power b (some n)).chars := by
  cases hb <;> simp [text, Item.chars, baseChars, exponentChars]

theorem toList_factorText {f : Expr} (harithmetic : f.Arithmetic) (hproduct : f.isProduct = false)
    (hnumber : f.isNumber = false) : (factorText f).toList = (Item.ofFactor f).chars := by
  cases harithmetic with
  | num q => cases hnumber
  | mul _ => cases hproduct
  | pow hb => exact toList_text_pow hb
  | sym _ => simp [factorText, bracketFactor, text, Item.ofFactor, Item.chars, baseChars,
      exponentChars]
  | add _ => simp [factorText, bracketFactor, Item.ofFactor, Item.chars, baseChars,
      exponentChars]

theorem text_eq_factorText {f : Expr} (hsum : f.isSum = false) (hnumber : f.isNumber = false) :
    f.text.value = factorText f := by
  cases f with
  | num q => cases hnumber
  | add ts => cases hsum
  | _ => rfl

structure AreFactors (fs : List Expr) : Prop where
  arithmetic : ∀ f ∈ fs, f.Arithmetic
  not_product : ∀ f ∈ fs, f.isProduct = false
  not_number : ∀ f ∈ fs, f.isNumber = false

theorem Legible.areFactors {f : Expr} {fs : List Expr} (h : (mul (f :: fs)).Legible)
    (hf : f.isNumber = false) : AreFactors (f :: fs) := by
  cases h.canonical with
  | mul _ hargs =>
    exact ⟨fun f hf => (h.of_mem_args hf).arithmetic, hargs.flat, hargs.not_number hf⟩

section NumberFirst

variable {c : Rat} {fs : List Expr} (h : (mul (num c :: fs)).Legible)
include h

theorem Legible.areFactors_of_num : AreFactors fs := by
  cases h.canonical with
  | mul _ hargs =>
    exact ⟨fun f hf => (h.of_mem_args (List.mem_cons_of_mem _ hf)).arithmetic,
      (List.forall_mem_cons.1 hargs.flat).2, hargs.not_number_of_num⟩

theorem Legible.factors_ne_nil : fs ≠ [] := by
  cases h.canonical with
  | mul _ hargs =>
    rintro rfl
    exact absurd hargs.two_le (by simp)

theorem Legible.coefficient_ne_one : c ≠ 1 := by
  cases h.canonical with
  | mul _ hargs =>
    rintro rfl
    exact hargs.nontrivial 1 (by simp) (List.mem_cons_self ..)

end NumberFirst

namespace AreFactors

variable {fs : List Expr} (h : AreFactors fs)
include h

theorem map_toList_factorText :
    (fs.map factorText).map String.toList = (fs.map Item.ofFactor).map Item.chars := by
  rw [List.map_map, List.map_map]
  exact List.map_congr_left fun f hf =>
    toList_factorText (h.arithmetic f hf) (h.not_product f hf) (h.not_number f hf)

theorem toList_intercalate :
    ("*".intercalate (fs.map factorText)).toList = Item.joined (fs.map Item.ofFactor) := by
  rw [String.toList_intercalate, h.map_toList_factorText]
  rfl

theorem toList_productText {c : Rat} (hc : c ≠ 1) (hfs : fs ≠ []) :
    (productText c (fs.map factorText)).toList = Summand.chars ⟨c, fs⟩ := by
  unfold productText
  split
  · next hminus =>
    have hsigned : Summand.isSigned ⟨c, fs⟩ = true := by
      rw [hminus]
      simp [Summand.isSigned]
    rw [String.toList_append, h.toList_intercalate, Summand.chars, Summand.items, hsigned, hminus]
    simp [Item.ofProduct, hfs]
  · next hminus =>
    have hneg : -c ≠ 1 := fun h => hminus (neg_eq_iff_eq_neg.1 h)
    rw [String.toList_intercalate, List.map_cons, h.map_toList_factorText]
    by_cases hden : c.den = 1
    · rcases lt_or_ge c 0 with hlt | hge
      · have hsigned : Summand.isSigned ⟨c, fs⟩ = true := by simp [Summand.isSigned, hlt, hden]
        have hitems : Summand.items true ⟨c, fs⟩ = .number (-c) :: fs.map Item.ofFactor := by
          simp [Summand.items, Item.ofProduct, hfs, hneg, hden]
        rw [Summand.chars, hsigned, hitems, bracketFactor, if_pos hden,
          Fraction.toList_text_neg hlt, Item.joined, List.map_cons]
        simp [Item.chars]
      · rw [Summand.chars_of_nonneg hge]
        simp [Item.ofProduct, hfs, hc, hden, Item.joined, Item.chars, bracketFactor]
    · have hsigned : Summand.isSigned ⟨c, fs⟩ = false := by simp [Summand.isSigned, hfs, hden]
      rw [Summand.chars, Summand.items, hsigned]
      simp [Item.ofProduct, hfs, hc, hden, Item.joined, Item.chars, bracketFactor, baseChars,
        exponentChars, text]

end AreFactors

theorem Legible.toList_text_of_not_sum {e : Expr} (h : e.Legible) (hsum : e.isSum = false) :
    e.text.value.toList = (Summand.ofExpr e).chars := by
  have hsingle (hproduct : e.isProduct = false) (hnumber : e.isNumber = false) :
      e.text.value.toList = (Summand.ofExpr e).chars := by
    rw [Summand.ofExpr_single hproduct hnumber, Summand.chars_single,
      text_eq_factorText hsum hnumber, toList_factorText h.arithmetic hproduct hnumber]
  cases h.canonical with
  | num q =>
    rw [Summand.ofExpr_num]
    rcases lt_or_ge q 0 with hlt | hge
    · have hsigned : Summand.isSigned ⟨q, []⟩ = true := by simp [Summand.isSigned, hlt]
      rw [Summand.chars, Summand.items, hsigned, text, Checked.value_pure,
        Fraction.toList_text_neg hlt]
      simp [Item.ofProduct, Item.joined, Item.chars]
    · rw [Summand.chars_of_nonneg hge]
      simp [text, Item.ofProduct, Item.joined, Item.chars]
  | @mul fs _ hargs =>
    cases fs with
    | nil => exact absurd hargs.two_le (by simp)
    | cons f fs =>
      cases hf : f.isNumber with
      | false =>
        rw [Summand.ofExpr_mul h.canonical hf, value_text_mul hf, (h.areFactors hf).toList_intercalate,
          Summand.chars_of_nonneg zero_le_one]
        simp [Item.ofProduct]
      | true =>
        obtain ⟨c, rfl⟩ := isNumber_iff.1 hf
        rw [Summand.ofExpr_mul_num h.canonical, value_text_mul_num,
          h.areFactors_of_num.toList_productText h.coefficient_ne_one h.factors_ne_nil]
  | add _ _ => cases hsum
  | _ => exact hsingle rfl rfl

section Opposite

variable {c : Rat} {fs : List Expr} (h : (mul (num c :: fs)).Canonical)
include h

theorem value_neg_mul : (mul (num c :: fs)).neg.value = ofFactors (-c) fs := by
  cases h with
  | mul _ hargs =>
    have hothers : others fs = fs :=
      List.filter_eq_self.2 fun f hf => by simp [hargs.not_number_of_num f hf]
    have hnumbers : numbers fs = [] := by rw [← hothers, numbers_others]
    rw [value_neg, factors, numbers_cons_num, others_cons_num, hnumbers, hothers,
      List.prod_singleton]

theorem ofFactors_of_ne_one {b : Rat} (hzero : b ≠ 0) (hone : b ≠ 1) :
    ofFactors b fs = mul (num b :: fs) := by
  cases h with
  | mul _ hargs =>
    have hsort : sort (fs ++ [num b]) = num b :: fs := by
      apply sort_eq_of_perm (List.perm_append_singleton ..)
      have hsorted := (List.pairwise_cons.1 hargs.sorted).2
      exact List.pairwise_cons.2
        ⟨fun f hf => isLE_cmp_num b (hargs.not_number_of_num f hf), hsorted⟩
    cases fs with
    | nil => exact absurd hargs.two_le (by simp)
    | cons f fs => rw [ofFactors, if_neg hzero, if_neg hone, hsort]

theorem sort_factors : sort fs = fs := by
  cases h with
  | mul _ hargs => exact sort_eq_of_perm (.refl _) (List.pairwise_cons.1 hargs.sorted).2

end Opposite

theorem Legible.toList_negatedText {c : Rat} {fs : List Expr} (h : (mul (num c :: fs)).Legible)
    (hc : c < 0) (hsum : ∀ us, mul (num c :: fs) ≠ mul [num (-1), add us]) :
    (mul (num c :: fs)).negatedText.value.toList = Item.joined (Item.ofProduct (-c) fs) := by
  have hfactors := h.areFactors_of_num
  have hzero : -c ≠ 0 := neg_ne_zero.2 hc.ne
  rw [negatedText_mul, Checked.value_bind, value_neg_mul h.canonical]
  by_cases hone : -c = 1
  · have hjoined : Item.joined (Item.ofProduct (-c) fs) = Item.joined (fs.map Item.ofFactor) := by
      simp [Item.ofProduct, h.factors_ne_nil, hone]
    rw [hjoined, ← hfactors.toList_intercalate, ofFactors, if_neg hzero, if_pos hone,
      sort_factors h.canonical]
    cases fs with
    | nil => exact absurd rfl h.factors_ne_nil
    | cons f fs =>
      have hnumber := hfactors.not_number f (List.mem_cons_self ..)
      cases fs with
      | nil =>
        -- The opposite is the factor itself, which gets no brackets.
        have hnot : f.isSum = false := by
          cases f with
          | add us => exact absurd (by rw [← hone, neg_neg]) (hsum us)
          | _ => rfl
        simp [text_eq_factorText hnot hnumber]
      | cons g gs => exact congrArg String.toList (value_text_mul hnumber (g :: gs))
  · rw [ofFactors_of_ne_one h.canonical hzero hone, value_text_mul_num,
      hfactors.toList_productText hone h.factors_ne_nil,
      Summand.chars_of_nonneg (neg_nonneg.2 hc.le)]

def addedText : Expr → TermText
  | num q => numberText false q
  | e => if e.isNegative then ⟨true, e.negatedText⟩ else ⟨false, e.text⟩

theorem addedText_of_not_number {e : Expr} (h : e.isNumber = false) :
    addedText e = if e.isNegative then ⟨true, e.negatedText⟩ else ⟨false, e.text⟩ := by
  cases e with
  | num q => cases h
  | _ => rfl

theorem termTexts_false (ts : List Expr) : termTexts false ts = (others ts).map addedText := by
  induction ts with
  | nil => rfl
  | cons t ts ih =>
    cases ht : t.isNumber with
    | true => simpa [termTexts, others, ht] using ih
    | false =>
      rw [termTexts, ih, others, others, List.filter_cons_of_pos (by simp [ht]), List.map_cons,
        addedText_of_not_number ht]
      cases t.isNegative <;> simp [ht]

theorem termTexts_true {ts us : List Expr} {t : Expr} (h : others ts = t :: us) :
    termTexts true ts = ⟨false, t.text⟩ :: us.map addedText := by
  induction ts with
  | nil => cases h
  | cons u ts ih =>
    cases hu : u.isNumber with
    | true =>
      have hskip : others (u :: ts) = others ts := List.filter_cons_of_neg (by simp [hu])
      rw [termTexts, if_pos hu, ih (hskip ▸ h)]
    | false =>
      rw [others, List.filter_cons_of_pos (by simp [hu]), ← others] at h
      obtain ⟨rfl, rfl⟩ := List.cons.inj h
      rw [termTexts, termTexts_false]
      simp [hu]

theorem numberTexts_false (ts : List Expr) :
    numberTexts false ts = (ts.filter isNumber).map addedText := by
  induction ts with
  | nil => rfl
  | cons t ts ih =>
    cases t with
    | num q =>
      rw [numberTexts, ih]
      rfl
    | _ => exact ih

theorem text_add {ts us : List Expr} {t : Expr} (h : others ts = t :: us) :
    (add ts).text = sumText (⟨false, t.text⟩ :: (us ++ ts.filter isNumber).map addedText) := by
  rw [text, termTexts_true h, List.isEmpty_cons, numberTexts_false, List.map_append]
  rfl

def TermText.chars (t : TermText) : List Char :=
  (if t.isSubtracted then [' ', '-', ' '] else [' ', '+', ' ']) ++ t.text.value.toList

theorem toList_sumText (t : TermText) (rest : List TermText) :
    (sumText (t :: rest)).value.toList = t.text.value.toList ++ rest.flatMap TermText.chars := by
  have hgo (acc : String) (rest : List TermText) :
      (sumText.go acc rest).value.toList = acc.toList ++ rest.flatMap TermText.chars := by
    induction rest generalizing acc with
    | nil => simp [sumText.go]
    | cons t rest ih =>
      rw [sumText.go, Checked.value_bind, ih]
      cases ht : t.isSubtracted <;> simp [TermText.chars, ht]
  rw [sumText, Checked.value_bind, hgo]

theorem Legible.chars_addedText {e : Expr} (h : e.Legible) (hsum : e.isSum = false)
    (hsub : ∀ us, e ≠ mul [num (-1), add us]) :
    (addedText e).chars = (Summand.ofExpr e).addedChars := by
  have hadded (hnumber : e.isNumber = false) (hnegative : e.isNegative = false)
      (hge : 0 ≤ (Summand.ofExpr e).coefficient) :
      (addedText e).chars = (Summand.ofExpr e).addedChars := by
    rw [addedText_of_not_number hnumber, hnegative, Summand.addedChars_of_nonneg hge,
      ← h.toList_text_of_not_sum hsum]
    rfl
  have hsingle (hproduct : e.isProduct = false) (hnumber : e.isNumber = false)
      (hnegative : e.isNegative = false) :
      (addedText e).chars = (Summand.ofExpr e).addedChars := by
    apply hadded hnumber hnegative
    rw [Summand.ofExpr_single hproduct hnumber]
    exact zero_le_one
  cases h.canonical with
  | num q =>
    rcases lt_or_ge q 0 with hlt | hge
    · rw [Summand.ofExpr_num, Summand.addedChars_of_neg hlt]
      simp [addedText, numberText, not_le.2 hlt, TermText.chars, Item.ofProduct, Item.joined,
        Item.chars]
    · rw [Summand.addedChars_of_nonneg (by rwa [Summand.ofExpr_num]),
        ← h.toList_text_of_not_sum hsum]
      simp [addedText, numberText, hge, TermText.chars, text]
  | @mul fs _ hargs =>
    cases fs with
    | nil => exact absurd hargs.two_le (by simp)
    | cons f fs =>
      cases hf : f.isNumber with
      | false =>
        have hnegative : (mul (f :: fs)).isNegative = false := by
          cases f with
          | num q => cases hf
          | _ => rfl
        apply hadded rfl hnegative
        rw [Summand.ofExpr_mul h.canonical hf]
        exact zero_le_one
      | true =>
        obtain ⟨c, rfl⟩ := isNumber_iff.1 hf
        have hsummand := Summand.ofExpr_mul_num h.canonical
        rcases lt_or_ge c 0 with hlt | hge
        · have hnegative : (mul (num c :: fs)).isNegative = true := decide_eq_true hlt
          rw [addedText_of_not_number rfl, hnegative, hsummand, Summand.addedChars_of_neg hlt,
            ← h.toList_negatedText hlt hsub]
          rfl
        · apply hadded rfl (decide_eq_false (not_lt.2 hge))
          rwa [hsummand]
  | add _ _ => cases hsum
  | _ => exact hsingle rfl rfl rfl

theorem writtenTerms_of_not_sum {e : Expr} (h : e.isSum = false) : e.writtenTerms = [e] := by
  have hterms : e.terms = [e] := by
    cases e with
    | add ts => cases h
    | _ => rfl
  rw [writtenTerms, hterms, others]
  cases hnumber : e.isNumber <;> simp [hnumber]

theorem Legible.toList_text {e : Expr} (h : e.Legible) :
    e.text.value.toList = rowChars (e.writtenTerms.map Summand.ofExpr) := by
  cases hsum : e.isSum with
  | false =>
    rw [writtenTerms_of_not_sum hsum, h.toList_text_of_not_sum hsum]
    simp [rowChars]
  | true =>
    cases h.canonical with
    | @add ts _ hargs =>
      obtain ⟨u, hu, hnumber⟩ := hargs.exists_not_number
      obtain ⟨t, us, hothers⟩ :=
        List.exists_cons_of_ne_nil (List.ne_nil_of_mem (mem_others.2 ⟨hu, hnumber⟩))
      have hterm {t : Expr} (ht : t ∈ others ts ++ ts.filter isNumber) :
          t.Legible ∧ t.isSum = false := by
        have hmem : t ∈ ts := by
          rcases List.mem_append.1 ht with ht | ht
          · exact List.mem_of_mem_filter ht
          · exact List.mem_of_mem_filter ht
        exact ⟨h.of_mem_args hmem, hargs.flat t hmem⟩
      have hsub {t : Expr} (ht : t ∈ us ++ ts.filter isNumber) (vs : List Expr) :
          t ≠ mul [num (-1), add vs] := by
        rintro rfl
        rcases List.mem_append.1 ht with ht | ht
        · exact h.not_subtracts ⟨ts, vs, .self, by rwa [hothers]⟩
        · cases (List.mem_filter.1 ht).2
      have hwritten : (add ts).writtenTerms = t :: (us ++ ts.filter isNumber) := by
        rw [writtenTerms, terms, hothers, List.cons_append]
      rw [hothers, List.cons_append] at hterm
      obtain ⟨hlegible, hflat⟩ := hterm (List.mem_cons_self ..)
      rw [hwritten, text_add hothers, toList_sumText, hlegible.toList_text_of_not_sum hflat,
        List.map_cons, rowChars, List.flatMap_map, List.flatMap_map]
      congr 1
      refine List.flatMap_congr fun v hv => ?_
      obtain ⟨hlegible, hflat⟩ := hterm (List.mem_cons_of_mem _ hv)
      exact hlegible.chars_addedText hflat (hsub hv)
    | _ => cases hsum

end Expr

end Stencil
