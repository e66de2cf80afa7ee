import Stencil.Expr.Eval
import Stencil.Proofs.Expr.Summands

/-!
This module contains the fact that expressions of arithmetic are known from their texts, as long as
no sum in them is subtracted. Every part of a text, from items to sums, is known together with where
it ends, because what follows it begins with a character that does not go on with it. Brackets are
the only place where a whole text stands inside of another one, and there the fact is used again for
what stands in them.
-/

namespace Stencil

namespace Expr

def Begins (cs : List Char) (r : List Char) : Prop := ∀ c ∈ r.head?, c ∈ cs

theorem Begins.nil (cs : List Char) : Begins cs [] := by simp [Begins]

theorem Begins.cons {cs : List Char} {c : Char} (hc : c ∈ cs) (r : List Char) :
    Begins cs (c :: r) := by
  simpa [Begins] using hc

theorem Begins.mono {cs ds r : List Char} (h : Begins cs r) (hsub : cs ⊆ ds) : Begins ds r :=
  fun c hc => hsub (h c hc)

theorem Begins.forall_head {cs r : List Char} {p : Char → Bool} (h : Begins cs r)
    (hp : cs.any p = false) : ∀ c ∈ r.head?, p c = false :=
  fun c hc => Bool.eq_false_iff.2 (List.any_eq_false.1 hp c (h c hc))

/-- What comes after an item: no digit, no name, and no exponent. -/
structure EndsItem (r : List Char) : Prop where
  begins : Begins [' ', ')', '*'] r
  no_exponent : ∀ r', r ≠ '*' :: '*' :: r'

def EndsProduct (r : List Char) : Prop := Begins [' ', ')'] r

def EndsSum (r : List Char) : Prop := Begins [')'] r

theorem EndsProduct.endsItem {r : List Char} (h : EndsProduct r) : EndsItem r where
  begins := h.mono (by decide)
  no_exponent := by
    rintro r' rfl
    exact absurd (h '*' rfl) (by decide)

theorem EndsSum.endsProduct {r : List Char} (h : EndsSum r) : EndsProduct r := h.mono (by decide)

theorem flatMap_append_inj {α : Type} {f : α → List Char} (Valid : α → Prop)
    (Between : List Char → Prop) {End : List Char → Prop} {as bs : List α} {r r' : List Char}
    (hinj : ∀ a ∈ as, ∀ b, Valid b → ∀ r r', Between r → Between r' → f a ++ r = f b ++ r' →
      a = b ∧ r = r')
    (hbetween : ∀ (cs : List α) r, (∀ c ∈ cs, Valid c) → End r → Between (cs.flatMap f ++ r))
    (hend : ∀ a r r', End r' → f a ++ r ≠ r')
    (has : ∀ a ∈ as, Valid a) (hbs : ∀ b ∈ bs, Valid b) (hr : End r) (hr' : End r')
    (h : as.flatMap f ++ r = bs.flatMap f ++ r') : as = bs ∧ r = r' := by
  induction as generalizing bs with
  | nil =>
    cases bs with
    | nil => exact ⟨rfl, h⟩
    | cons b bs =>
      rw [List.flatMap_cons, List.append_assoc] at h
      exact absurd h.symm (hend b _ _ hr)
  | cons a as ih =>
    rw [List.flatMap_cons, List.append_assoc] at h
    cases bs with
    | nil => exact absurd h (hend a _ _ hr')
    | cons b bs =>
      rw [List.flatMap_cons, List.append_assoc] at h
      rw [List.forall_mem_cons] at hinj has hbs
      obtain ⟨rfl, hrest⟩ := hinj.1 b hbs.1 _ _ (hbetween as r has.2 hr)
        (hbetween bs r' hbs.2 hr') h
      obtain ⟨rfl, hend⟩ := ih hinj.2 has.2 hbs.2 hrest
      exact ⟨rfl, hend⟩

/-- An expression is known from its text, together with where the text ends. -/
def Determined (e : Expr) : Prop :=
  ∀ e' r r', e'.Legible → EndsSum r → EndsSum r' →
    e.text.value.toList ++ r = e'.text.value.toList ++ r' → e = e' ∧ r = r'

def isScalar : Expr → Bool
  | sym _ => true
  | _ => false

theorem baseChars_of_not_scalar {b : Expr} (h : b.isScalar = false) :
    baseChars b = '(' :: (b.text.value.toList ++ [')']) := by
  cases b with
  | sym s => cases h
  | _ => rfl

theorem Legible.isName {s : String} (h : (sym s).Legible) : IsName s := by
  cases h.arithmetic with
  | sym hs => exact hs

theorem Legible.exists_baseChars_eq_cons {b : Expr} (h : b.Legible) :
    ∃ c cs, baseChars b = c :: cs ∧ c.isDigit = false ∧ c ∉ ['*', '-'] := by
  cases hscalar : b.isScalar with
  | false => exact ⟨_, _, baseChars_of_not_scalar hscalar, by decide, by decide⟩
  | true =>
    cases b with
    | sym s =>
      obtain ⟨⟨c, cs, hcons, hdigit⟩, hname⟩ := h.isName
      have hc := hname c (by rw [hcons]; exact List.mem_cons_self ..)
      refine ⟨c, cs, hcons, hdigit, fun hmem => hc ?_⟩
      exact (show ['*', '-'] ⊆ [' ', '(', ')', '*', '+', '-', '/'] by decide) hmem
    | _ => cases hscalar

theorem baseChars_append_inj {b b' : Expr} {r r' : List Char} (hb : b.Legible) (hb' : b'.Legible)
    (hdet : b.isScalar = false → b.Determined) (hr : Begins [' ', ')', '*'] r)
    (hr' : Begins [' ', ')', '*'] r') (h : baseChars b ++ r = baseChars b' ++ r') :
    b = b' ∧ r = r' := by
  have hbracket {s : String} {b : Expr} {r r' : List Char} (hs : (sym s).Legible)
      (hb : b.isScalar = false) : baseChars (sym s) ++ r ≠ baseChars b ++ r' := by
    obtain ⟨⟨c, cs, hcons, -⟩, hname⟩ := hs.isName
    intro h
    rw [baseChars_of_not_scalar hb, baseChars, hcons] at h
    have hc := hname c (by rw [hcons]; exact List.mem_cons_self ..)
    rw [(List.cons.inj h).1] at hc
    exact hc (by decide)
  cases hscalar : b.isScalar with
  | true =>
    cases b with
    | sym s =>
      cases hscalar' : b'.isScalar with
      | true =>
        cases b' with
        | sym s' =>
          have hname {s : String} (hs : (sym s).Legible) :
              ∀ c ∈ s.toList, (!decide (c ∈ [' ', ')', '*'])) = true := by
            intro c hc
            have hnot := hs.isName.2 c hc
            have hsub : [' ', ')', '*'] ⊆ [' ', '(', ')', '*', '+', '-', '/'] := by decide
            simpa only [Bool.not_eq_true', decide_eq_false_iff_not] using fun hmem =>
              hnot (hsub hmem)
          have hstop {r : List Char} (hr : Begins [' ', ')', '*'] r) :
              ∀ c ∈ r.head?, (!decide (c ∈ [' ', ')', '*'])) = false :=
            hr.forall_head rfl
          obtain ⟨hs, hrest⟩ := append_inj_of_forall (hname hb) (hname hb') (hstop hr)
            (hstop hr') h
          exact ⟨congrArg sym (String.toList_inj.1 hs), hrest⟩
        | _ => cases hscalar'
      | false => exact absurd h (hbracket hb hscalar')
    | _ => cases hscalar
  | false =>
    cases hscalar' : b'.isScalar with
    | true =>
      cases b' with
      | sym s' => exact absurd h.symm (hbracket hb' hscalar)
      | _ => cases hscalar'
    | false =>
      rw [baseChars_of_not_scalar hscalar, baseChars_of_not_scalar hscalar', List.cons_append,
        List.cons_append, List.append_assoc, List.append_assoc] at h
      -- The closing bracket is where the text between the brackets ends.
      have hclose (r : List Char) : EndsSum (')' :: r) := Begins.cons (by decide) r
      obtain ⟨rfl, hrest⟩ :=
        hdet hscalar b' _ _ hb' (hclose r) (hclose r') (List.cons.inj h).2
      exact ⟨rfl, (List.cons.inj hrest).2⟩

theorem exponentChars_append_inj {m n : Option Int} {r r' : List Char} (hr : EndsItem r)
    (hr' : EndsItem r') (h : exponentChars m ++ r = exponentChars n ++ r') : m = n ∧ r = r' := by
  cases m with
  | none =>
    cases n with
    | none => exact ⟨rfl, h⟩
    | some j => exact absurd h (hr.no_exponent _)
  | some i =>
    cases n with
    | none => exact absurd h.symm (hr'.no_exponent _)
    | some j =>
      have hdigit {r : List Char} (hr : EndsItem r) : ∀ c ∈ r.head?, c.isDigit = false :=
        hr.begins.forall_head rfl
      obtain ⟨rfl, hrest⟩ := intText_append_inj (hdigit hr) (hdigit hr')
        (List.cons.inj (List.cons.inj h).2).2
      exact ⟨rfl, hrest⟩

namespace Item

def Valid : Item → Prop
  | number q => 0 ≤ q
  | power b _ => b.Legible

def BaseDetermined : Item → Prop
  | number _ => True
  | power b _ => b.isScalar = false → b.Determined

theorem exists_chars_number {q : Rat} (hq : 0 ≤ q) :
    ∃ c cs, (number q).chars = c :: cs ∧ c.isDigit = true := by
  obtain ⟨c, cs, hcons, hdigit⟩ := exists_natText_eq_cons q.num.natAbs
  rw [chars, Fraction.toList_text hq, hcons]
  exact ⟨c, _, rfl, hdigit⟩

theorem exists_chars_power {b : Expr} (hb : b.Legible) (n : Option Int) :
    ∃ c cs, (power b n).chars = c :: cs ∧ c.isDigit = false ∧ c ∉ ['*', '-'] := by
  obtain ⟨c, cs, hcons, hc⟩ := hb.exists_baseChars_eq_cons
  rw [chars, hcons]
  exact ⟨c, _, rfl, hc⟩

theorem exists_chars_eq_cons {i : Item} (hi : i.Valid) :
    ∃ c cs, i.chars = c :: cs ∧ c ∉ ['*', '-'] := by
  cases i with
  | number q =>
    obtain ⟨c, cs, hcons, hdigit⟩ := exists_chars_number hi
    refine ⟨c, cs, hcons, fun hc => ?_⟩
    have hnot : ['*', '-'].any Char.isDigit = false := rfl
    exact List.any_eq_false.1 hnot c hc hdigit
  | power b n =>
    obtain ⟨c, cs, hcons, -, hc⟩ := exists_chars_power hi n
    exact ⟨c, cs, hcons, hc⟩

theorem number_chars_append_ne {q : Rat} {b : Expr} {n : Option Int} {r r' : List Char}
    (hq : 0 ≤ q) (hb : b.Legible) : (number q).chars ++ r ≠ (power b n).chars ++ r' := by
  obtain ⟨c, cs, hnumber, hdigit⟩ := exists_chars_number hq
  obtain ⟨d, ds, hpower, hnot, -⟩ := exists_chars_power hb n
  rw [hnumber, hpower]
  intro h
  rw [(List.cons.inj h).1, hnot] at hdigit
  cases hdigit

theorem chars_append_inj {i j : Item} {r r' : List Char} (hi : i.Valid) (hj : j.Valid)
    (hdet : i.BaseDetermined) (hr : EndsItem r) (hr' : EndsItem r')
    (h : i.chars ++ r = j.chars ++ r') : i = j ∧ r = r' := by
  cases i with
  | number p =>
    cases j with
    | number q =>
      have hstop {r : List Char} (hr : EndsItem r) :
          ∀ c ∈ r.head?, c.isDigit = false ∧ c ≠ '/' := by
        have hdigit := hr.begins.forall_head (p := Char.isDigit) rfl
        have hslash := hr.begins.forall_head (p := (· == '/')) rfl
        exact fun c hc => ⟨hdigit c hc, beq_eq_false_iff_ne.1 (hslash c hc)⟩
      obtain ⟨rfl, hrest⟩ := Fraction.text_append_inj hi hj (hstop hr) (hstop hr') h
      exact ⟨rfl, hrest⟩
    | power b n => exact absurd h (number_chars_append_ne hi hj)
  | power b n =>
    cases j with
    | number q => exact absurd h.symm (number_chars_append_ne hj hi)
    | power b' n' =>
      have hbegins {n : Option Int} {r : List Char} (hr : EndsItem r) :
          Begins [' ', ')', '*'] (exponentChars n ++ r) := by
        cases n with
        | none => exact hr.begins
        | some n => exact .cons (by decide) _
      rw [chars, chars, List.append_assoc, List.append_assoc] at h
      obtain ⟨rfl, hrest⟩ := baseChars_append_inj hi hj hdet (hbegins hr) (hbegins hr') h
      obtain ⟨rfl, hend⟩ := exponentChars_append_inj hr hr' hrest
      exact ⟨rfl, hend⟩

theorem cons_joined {is : List Item} (h : is ≠ []) :
    '*' :: joined is = is.flatMap fun i => '*' :: i.chars := by
  obtain ⟨i, is, rfl⟩ := List.exists_cons_of_ne_nil h
  rw [joined_cons, List.flatMap_cons, List.cons_append]

theorem joined_append_inj {is js : List Item} {r r' : List Char} (his : is ≠ []) (hjs : js ≠ [])
    (hvalid : ∀ i ∈ is, i.Valid) (hvalid' : ∀ j ∈ js, j.Valid)
    (hdet : ∀ i ∈ is, i.BaseDetermined) (hr : EndsProduct r) (hr' : EndsProduct r')
    (h : joined is ++ r = joined js ++ r') : is = js ∧ r = r' := by
  have hcons := congrArg ('*' :: ·) h
  simp only [← List.cons_append, cons_joined his, cons_joined hjs] at hcons
  refine flatMap_append_inj Valid EndsItem ?_ ?_ ?_ hvalid hvalid' hr hr' hcons
  · intro i hi j hj r r' hr hr' h
    exact chars_append_inj (hvalid i hi) hj (hdet i hi) hr hr' (List.cons.inj h).2
  · intro is r his hr
    cases is with
    | nil => exact EndsProduct.endsItem hr
    | cons i is =>
      -- No item begins with `*`, so the one in front of it is no part of an exponent.
      obtain ⟨c, cs, hcons, hc⟩ := exists_chars_eq_cons (his i (List.mem_cons_self ..))
      refine ⟨.cons (by decide) _, ?_⟩
      rw [List.flatMap_cons, hcons]
      rintro r' h
      rw [(List.cons.inj (List.cons.inj h).2).1] at hc
      exact hc (by decide)
  · intro i r r' hr' h
    have hmem := hr' '*' (by rw [← h]; rfl)
    exact absurd hmem (by decide)

end Item

namespace Summand

def Valid (s : Summand) : Prop := ∀ f ∈ s.factors, f.Legible ∧ f.isNumber = false

theorem Valid.of_term {t : Expr} (h : t.Legible) : (ofExpr t).Valid := by
  intro f hf
  obtain ⟨hf, hnumber⟩ := mem_others.1 hf
  cases hproduct : t.isProduct with
  | false =>
    rw [factors_of_not_product hproduct, List.mem_singleton] at hf
    exact ⟨hf ▸ h, hnumber⟩
  | true =>
    cases t with
    | mul fs => exact ⟨h.of_mem_args hf, hnumber⟩
    | _ => cases hproduct

def WritesSign (s : Summand) (signed : Bool) : Prop :=
  s.factors = [] ∨ s.coefficient.den = 1 →
    0 ≤ if signed then -s.coefficient else s.coefficient

theorem writesSign_isSigned (s : Summand) : s.WritesSign s.isSigned := by
  intro h
  cases hsigned : s.isSigned with
  | true =>
    have hlt := (of_decide_eq_true hsigned).1
    simpa using hlt.le
  | false =>
    have hnot := of_decide_eq_false hsigned
    exact not_lt.1 fun hlt => hnot ⟨hlt, h⟩

theorem writesSign_isSubtracted (s : Summand) : s.WritesSign s.isSubtracted := by
  intro _
  cases hsubtracted : s.isSubtracted with
  | true =>
    have hlt := of_decide_eq_true hsubtracted
    simpa using hlt.le
  | false => exact not_lt.1 (of_decide_eq_false hsubtracted)

end Summand

theorem Item.mem_ofProduct {i : Item} {c : Rat} {fs : List Expr} (h : i ∈ ofProduct c fs) :
    ((fs = [] ∨ c.den = 1) ∧ i = number c) ∨ i = power (num c) none ∨ ∃ f ∈ fs, i = ofFactor f := by
  have hmap (h : i ∈ fs.map ofFactor) : ∃ f ∈ fs, i = ofFactor f := by
    obtain ⟨f, hf, rfl⟩ := List.mem_map.1 h
    exact ⟨f, hf, rfl⟩
  unfold ofProduct at h
  split at h
  · next hnil => exact .inl ⟨.inl hnil, List.mem_singleton.1 h⟩
  · split at h
    · exact .inr (.inr (hmap h))
    · split at h
      · next hden =>
        rcases List.mem_cons.1 h with h | h
        · exact .inl ⟨.inr hden, h⟩
        · exact .inr (.inr (hmap h))
      · rcases List.mem_cons.1 h with h | h
        · exact .inr (.inl h)
        · exact .inr (.inr (hmap h))

theorem Item.valid_ofFactor {f : Expr} (h : f.Legible) : (ofFactor f).Valid := by
  cases f with
  | pow b n => exact h.of_mem_args (List.mem_singleton_self b)
  | _ => exact h

namespace Summand

theorem Valid.valid_items {s : Summand} (h : s.Valid) {signed : Bool}
    (hsign : s.WritesSign signed) : ∀ i ∈ s.items signed, i.Valid := by
  intro i hi
  rcases Item.mem_ofProduct hi with ⟨hc, rfl⟩ | rfl | ⟨f, hf, rfl⟩
  · apply hsign
    refine hc.imp_right fun hden => ?_
    cases signed with
    | true => exact (Rat.den_neg_eq_den s.coefficient).symm.trans hden
    | false => exact hden
  · exact legible_num _
  · exact Item.valid_ofFactor (h f hf).1

def BasesDetermined (s : Summand) : Prop := ∀ signed, ∀ i ∈ s.items signed, i.BaseDetermined

theorem items_inj {s t : Summand} (hs : s.Valid) (ht : t.Valid) {signed : Bool}
    (h : s.items signed = t.items signed) : s = t := by
  obtain ⟨hcoefficient, hfactors⟩ :=
    Item.ofProduct_inj (fun f hf => (hs f hf).2) (fun f hf => (ht f hf).2) h
  have hneg : s.coefficient = t.coefficient := by
    cases signed with
    | true => exact neg_inj.1 hcoefficient
    | false => exact hcoefficient
  cases s
  cases t
  exact congr (congrArg Summand.mk hneg) hfactors

section Inj

variable {s t : Summand} (hs : s.Valid) (ht : t.Valid) (hdet : s.BasesDetermined)
  {r r' : List Char} (hr : EndsProduct r) (hr' : EndsProduct r')

include hs ht hdet hr hr'

theorem joined_items_append_inj {signed : Bool} (hsign : s.WritesSign signed)
    (hsign' : t.WritesSign signed)
    (h : Item.joined (s.items signed) ++ r = Item.joined (t.items signed) ++ r') :
    s = t ∧ r = r' := by
  obtain ⟨hitems, hrest⟩ := Item.joined_append_inj (Item.ofProduct_ne_nil _ _)
    (Item.ofProduct_ne_nil _ _) (hs.valid_items hsign) (ht.valid_items hsign') (hdet signed) hr hr'
    h
  exact ⟨items_inj hs ht hitems, hrest⟩

theorem chars_append_inj (h : s.chars ++ r = t.chars ++ r') : s = t ∧ r = r' := by
  -- No item begins with a sign, so a sign in front belongs to the summand.
  have hhead {s : Summand} (hs : s.Valid) (r : List Char) :
      (Item.joined (s.items s.isSigned) ++ r).head? ≠ some '-' := by
    obtain ⟨i, is, hitems⟩ := List.exists_cons_of_ne_nil
      (Item.ofProduct_ne_nil (if s.isSigned then -s.coefficient else s.coefficient) s.factors)
    have hvalid := hs.valid_items s.writesSign_isSigned
    rw [items, hitems] at hvalid ⊢
    obtain ⟨c, cs, hcons, hc⟩ := Item.exists_chars_eq_cons (hvalid i (List.mem_cons_self ..))
    rw [Item.joined_cons, hcons]
    intro h
    rw [Option.some.inj h] at hc
    exact hc (by decide)
  rw [chars, chars, List.append_assoc, List.append_assoc] at h
  obtain ⟨hsigned, hjoined⟩ := sign_append_inj (hhead hs r) (hhead ht r') h
  have hsign := s.writesSign_isSigned
  rw [hsigned] at hsign hjoined
  exact joined_items_append_inj hs ht hdet hr hr' hsign t.writesSign_isSigned hjoined

theorem addedChars_append_inj (h : s.addedChars ++ r = t.addedChars ++ r') : s = t ∧ r = r' := by
  have hsplit {b c : Bool} {cs cs' : List Char}
      (h : (if b then [' ', '-', ' '] else [' ', '+', ' ']) ++ cs =
        (if c then [' ', '-', ' '] else [' ', '+', ' ']) ++ cs') : b = c ∧ cs = cs' := by
    cases b <;> cases c <;> simp_all
  rw [addedChars, addedChars, List.append_assoc, List.append_assoc] at h
  obtain ⟨hsubtracted, hjoined⟩ := hsplit h
  have hsign := s.writesSign_isSubtracted
  rw [hsubtracted] at hsign hjoined
  exact joined_items_append_inj hs ht hdet hr hr' hsign t.writesSign_isSubtracted hjoined

end Inj

end Summand

theorem endsProduct_added {ss : List Summand} {r : List Char} (hr : EndsSum r) :
    EndsProduct (ss.flatMap Summand.addedChars ++ r) := by
  cases ss with
  | nil => exact hr.endsProduct
  | cons s ss =>
    rw [List.flatMap_cons, Summand.addedChars]
    cases s.isSubtracted with
    | true => exact .cons (by decide) _
    | false => exact .cons (by decide) _

theorem rowChars_append_inj {ss ts : List Summand} {r r' : List Char} (hss : ss ≠ [])
    (hts : ts ≠ []) (hvalid : ∀ s ∈ ss, s.Valid) (hvalid' : ∀ t ∈ ts, t.Valid)
    (hdet : ∀ s ∈ ss, s.BasesDetermined) (hr : EndsSum r) (hr' : EndsSum r')
    (h : rowChars ss ++ r = rowChars ts ++ r') : ss = ts ∧ r = r' := by
  obtain ⟨s, ss, rfl⟩ := List.exists_cons_of_ne_nil hss
  obtain ⟨t, ts, rfl⟩ := List.exists_cons_of_ne_nil hts
  rw [rowChars, rowChars, List.append_assoc, List.append_assoc] at h
  rw [List.forall_mem_cons] at hvalid hvalid' hdet
  obtain ⟨rfl, hrest⟩ := Summand.chars_append_inj hvalid.1 hvalid'.1 hdet.1
    (endsProduct_added hr) (endsProduct_added hr') h
  obtain ⟨rfl, hend⟩ : ss = ts ∧ r = r' := by
    refine flatMap_append_inj Summand.Valid EndsProduct ?_ ?_ ?_ hvalid.2 hvalid'.2 hr hr' hrest
    · intro s hs t ht r r' hr hr' h
      exact Summand.addedChars_append_inj (hvalid.2 s hs) ht (hdet.2 s hs) hr hr' h
    · intro ts r _ hr
      exact endsProduct_added hr
    · intro s r r' hr' h
      have hmem := hr' ' ' (by rw [← h, Summand.addedChars]; cases s.isSubtracted <;> rfl)
      exact absurd hmem (by decide)
  exact ⟨rfl, hend⟩

theorem writtenTerms_perm (e : Expr) : e.writtenTerms.Perm e.terms :=
  List.perm_append_comm.trans (List.filter_append_perm isNumber e.terms)

theorem Legible.of_mem_terms {e t : Expr} (h : e.Legible) (ht : t ∈ e.terms) :
    t.Legible ∧ t.isSum = false := by
  cases h.canonical with
  | add _ hargs => exact ⟨h.of_mem_args ht, hargs.flat t ht⟩
  | _ =>
    obtain rfl := List.mem_singleton.1 ht
    exact ⟨h, rfl⟩

theorem Canonical.terms_ne_nil {e : Expr} (h : e.Canonical) : e.terms ≠ [] := by
  cases h with
  | add _ hargs => exact List.ne_nil_of_length_pos (Nat.lt_of_lt_of_le Nat.zero_lt_two hargs.two_le)
  | _ => exact List.cons_ne_nil _ _

theorem writtenTerms_inj {a b : Expr} (ha : a.Canonical) (hb : b.Canonical)
    (h : a.writtenTerms = b.writtenTerms) : a = b := by
  have hsums {e : Expr} {ts : List Expr} (hsum : e.isSum = false) (hts : Canonical (add ts)) :
      e.writtenTerms ≠ (add ts).writtenTerms := by
    intro h
    cases hts with
    | add _ hargs =>
      have htwo := hargs.two_le
      have hlength := (writtenTerms_perm (add ts)).length_eq
      rw [← h, writtenTerms_of_not_sum hsum, List.length_singleton, terms] at hlength
      omega
  cases hsum : a.isSum with
  | false =>
    cases hsum' : b.isSum with
    | false =>
      rw [writtenTerms_of_not_sum hsum, writtenTerms_of_not_sum hsum'] at h
      exact List.singleton_inj.1 h
    | true =>
      cases b with
      | add us => exact absurd h (hsums hsum hb)
      | _ => cases hsum'
  | true =>
    cases a with
    | add ts =>
      cases hsum' : b.isSum with
      | false => exact absurd h.symm (hsums hsum' ha)
      | true =>
        cases b with
        | add us =>
          have hperm : ts.Perm us :=
            (writtenTerms_perm (add ts)).symm.trans (h ▸ writtenTerms_perm (add us))
          rw [← ha.sum_eq (.refl ts), hb.sum_eq hperm]
        | _ => cases hsum'
    | _ => cases hsum

theorem Summand.map_toExpr_ofExpr {es : List Expr} (h : ∀ e ∈ es, e.Canonical) :
    (es.map ofExpr).map (fun s => ofFactors s.coefficient s.factors) = es := by
  rw [List.map_map]
  calc es.map ((fun s => ofFactors s.coefficient s.factors) ∘ ofExpr)
    _ = es.map id := List.map_congr_left fun e he => (h e he).ofFactors_factors
    _ = es := List.map_id es

theorem Within.exists_arg {x a t e : Expr} (ht : t.Within e) (ha : a ∈ t.args) (hx : x.Within a) :
    ∃ a ∈ e.args, x.Within a := by
  rcases within_iff.1 ht with rfl | ⟨b, hb, ht⟩
  · exact ⟨a, ha, hx⟩
  · exact ⟨b, hb, .trans (.arg ha hx) ht⟩

theorem Legible.base_within {e t b : Expr} {n : Option Int} {signed : Bool} (h : e.Legible)
    (ht : t ∈ e.terms) (hb : Item.power b n ∈ (Summand.ofExpr t).items signed)
    (hscalar : b.isScalar = false) : (∃ q, b = num q) ∨ ∃ a ∈ e.args, b.Within a := by
  have hwithin : t.Within e := Within.self.of_mem_terms ht
  obtain ⟨hlegible, hsum⟩ := h.of_mem_terms ht
  rcases Item.mem_ofProduct hb with ⟨-, heq⟩ | heq | ⟨f, hf, heq⟩
  · cases heq
  · exact .inl ⟨_, (Item.power.inj heq).1⟩
  · right
    obtain ⟨hf, hnumber⟩ := mem_others.1 hf
    -- Without an exponent, only a sum is in brackets, and the term itself is none.
    cases hlegible.arithmetic with
    | mul _ =>
      have hbase : b.Within f := by
        cases f with
        | pow b' n' =>
          obtain ⟨rfl, -⟩ := Item.power.inj heq
          exact .arg (List.mem_singleton_self b) .self
        | _ =>
          obtain ⟨rfl, -⟩ := Item.power.inj heq
          exact .self
      exact hwithin.exists_arg hf hbase
    | pow _ =>
      obtain rfl := List.mem_singleton.1 hf
      obtain ⟨rfl, -⟩ := Item.power.inj heq
      exact hwithin.exists_arg (List.mem_singleton_self b) .self
    | num q =>
      obtain rfl := List.mem_singleton.1 hf
      cases hnumber
    | sym _ =>
      obtain rfl := List.mem_singleton.1 hf
      obtain ⟨rfl, -⟩ := Item.power.inj heq
      cases hscalar
    | add _ => cases hsum

theorem Legible.determined_of_bases {e : Expr} (h : e.Legible)
    (hbases : ∀ t ∈ e.terms, (Summand.ofExpr t).BasesDetermined) : e.Determined := by
  intro e' r r' h' hr hr' heq
  have hterm {e t : Expr} (h : e.Legible) (ht : t ∈ e.writtenTerms) : t.Legible :=
    (h.of_mem_terms ((writtenTerms_perm e).mem_iff.1 ht)).1
  have hvalid {e : Expr} (h : e.Legible) :
      ∀ s ∈ e.writtenTerms.map Summand.ofExpr, s.Valid := by
    intro s hs
    obtain ⟨t, ht, rfl⟩ := List.mem_map.1 hs
    exact .of_term (hterm h ht)
  have hne {e : Expr} (h : e.Legible) : e.writtenTerms.map Summand.ofExpr ≠ [] := by
    have hterms := h.canonical.terms_ne_nil
    rw [ne_eq, List.map_eq_nil_iff]
    intro hnil
    exact hterms (List.perm_nil.1 (hnil ▸ (writtenTerms_perm e).symm))
  have hdet : ∀ s ∈ e.writtenTerms.map Summand.ofExpr, s.BasesDetermined := by
    intro s hs
    obtain ⟨t, ht, rfl⟩ := List.mem_map.1 hs
    exact hbases t ((writtenTerms_perm e).mem_iff.1 ht)
  rw [h.toList_text, h'.toList_text] at heq
  obtain ⟨hrows, hrest⟩ :=
    rowChars_append_inj (hne h) (hne h') (hvalid h) (hvalid h') hdet hr hr' heq
  refine ⟨writtenTerms_inj h.canonical h'.canonical ?_, hrest⟩
  rw [← Summand.map_toExpr_ofExpr fun t ht => (hterm h ht).canonical, hrows,
    Summand.map_toExpr_ofExpr fun t ht => (hterm h' ht).canonical]

theorem determined_num (q : Rat) : (num q).Determined := by
  apply (legible_num q).determined_of_bases
  intro t ht signed i hi
  obtain rfl := List.mem_singleton.1 ht
  rw [Summand.ofExpr_num] at hi
  obtain rfl := List.mem_singleton.1 hi
  trivial

theorem Legible.determined_of_args {e : Expr} (h : e.Legible)
    (ih : ∀ a ∈ e.args, ∀ x : Expr, x.Within a → x.Determined) :
    ∀ x : Expr, x.Within e → x.Determined := by
  intro x hx
  rcases within_iff.1 hx with rfl | ⟨a, ha, hx⟩
  · apply h.determined_of_bases
    intro t ht signed i hi
    cases i with
    | number q => trivial
    | power b n =>
      intro hscalar
      rcases h.base_within ht hi hscalar with ⟨q, rfl⟩ | ⟨a, ha, hb⟩
      · exact determined_num q
      · exact ih a ha b hb
  · exact ih a ha x hx

theorem Legible.determined {e : Expr} (h : e.Legible) : e.Determined := by
  suffices hall : ∀ x : Expr, x.Within e → x.Determined from hall e .self
  induction e using args_induct with
  | leaf e he =>
    apply h.determined_of_args
    rw [args_eq_nil he]
    intro a ha
    cases ha
  | operation e he ih => exact h.determined_of_args fun a ha => ih a ha (h.of_mem_args ha)

/--
Two canonical expressions of arithmetic with the same text are the same one, and so have the same
value, if in neither of them a sum is subtracted.
-/
theorem text_unambiguous {a b : Expr} (hac : a.Canonical) (hbc : b.Canonical)
    (haa : a.Arithmetic) (hba : b.Arithmetic) (has : ¬a.SubtractsSum) (hbs : ¬b.SubtractsSum)
    (h : a.text.value = b.text.value) :
    a = b ∧ ∀ ρ v w, a.evaluate ρ = pure (some v) → b.evaluate ρ = pure (some w) → v = w := by
  have ha : a.Legible := ⟨hac, haa, has⟩
  have hb : b.Legible := ⟨hbc, hba, hbs⟩
  have heq : a = b := by
    have hnil : EndsSum [] := .nil _
    have htext := congrArg (fun s => s.toList ++ []) h
    exact (ha.determined b [] [] hb hnil hnil htext).1
  refine ⟨heq, fun ρ v w hv hw => ?_⟩
  rw [heq, hw] at hv
  exact (Option.some.inj (congrArg Checked.value hv)).symm

def inner : Expr := add [sym "b", pow (sym "c") 2]

theorem arithmetic_letter : ∀ s ∈ ["a", "b", "c"], (sym s).Arithmetic := by
  have hletters : ∀ s ∈ ["a", "b", "c"], s ≠ "" ∧ s.toList.all Char.isAlpha = true := by decide
  exact fun s hs => .sym (isName_of_isAlpha (hletters s hs).1 (hletters s hs).2)

theorem canonical_square : (pow (sym "c") 2).Canonical :=
  .pow (.sym "c") (by decide) fun q h => by cases h

theorem arithmetic_square : (pow (sym "c") 2).Arithmetic :=
  .pow (arithmetic_letter "c" (by decide))

theorem canonical_inner : inner.Canonical :=
  .add (by simpa using ⟨.sym "b", canonical_square⟩)
    ⟨by decide, by decide, by decide, by decide, by decide⟩

theorem arithmetic_inner : inner.Arithmetic :=
  .add (by simpa using ⟨arithmetic_letter "b" (by decide), arithmetic_square⟩)

/-- A difference of `a`, of twice a sum and of a number: `a - 2*(b + c**2) - 1/2`. -/
def scaled : Expr := add [num (-1 / 2), sym "a", mul [num (-2), inner]]

theorem legible_scaled : scaled.Legible where
  canonical := by
    have hproduct : (mul [num (-2), inner]).Canonical :=
      .mul (by simpa using ⟨.num (-2), canonical_inner⟩)
        ⟨by decide, by decide, by decide, by decide, by decide⟩
    exact .add (by simpa using ⟨.num (-1 / 2), .sym "a", hproduct⟩)
      ⟨by decide, by decide +kernel, by decide, by decide, by decide +kernel⟩
  arithmetic := by
    have hproduct : (mul [num (-2), inner]).Arithmetic :=
      .mul (by simpa using ⟨.num (-2), arithmetic_inner⟩)
    exact .add (by simpa using ⟨.num (-1 / 2), arithmetic_letter "a" (by decide), hproduct⟩)
  not_subtracts := by
    rintro ⟨ts, us, hwithin, hmem⟩
    have hoperation : add ts ∈ [scaled, mul [num (-2), inner], inner, pow (sym "c") 2] :=
      mem_operations.2 ⟨rfl, hwithin⟩
    simp only [List.mem_cons, List.not_mem_nil, or_false, reduceCtorEq, false_or] at hoperation
    rcases hoperation with h | h
    · obtain rfl := add.inj h
      simp [others, isNumber] at hmem
    · obtain rfl := add.inj h
      simp [others, isNumber] at hmem

theorem text_unambiguous_scaled :
    scaled.Legible ∧ scaled.text = pure "a - 2*(b + c**2) - 1/2" ∧
      ∀ ρ v w, scaled.evaluate ρ = pure (some v) → scaled.evaluate ρ = pure (some w) → v = w :=
  ⟨legible_scaled, by decide +kernel, (text_unambiguous legible_scaled.canonical
    legible_scaled.canonical legible_scaled.arithmetic legible_scaled.arithmetic
    legible_scaled.not_subtracts legible_scaled.not_subtracts rfl).2⟩

/--
A sum that is subtracted has no brackets, so `a - (b + c**2)` has the text of `a - b + c**2`, which
has another value.
-/
theorem text_subtracted_ambiguous :
    ∃ x y : Expr, x.Canonical ∧ y.Canonical ∧ x.Arithmetic ∧ y.Arithmetic ∧
      x.text = pure "a - b + c**2" ∧ y.text = pure "a - b + c**2" ∧
      ∃ ρ : String → Option Int,
        x.evaluate ρ = pure (some (-10)) ∧ y.evaluate ρ = pure (some 8) := by
  refine ⟨add [sym "a", mul [num (-1), inner]],
    add [sym "a", mul [num (-1), sym "b"], pow (sym "c") 2], ?_, ?_, ?_, ?_, by decide +kernel,
    by decide +kernel,
    fun s => if s = "a" then some 1 else if s = "b" then some 2 else some 3, by decide +kernel,
    by decide +kernel⟩
  · have hproduct : (mul [num (-1), inner]).Canonical :=
      .mul (by simpa using ⟨.num (-1), canonical_inner⟩)
        ⟨by decide, by decide, by decide, by decide, by decide⟩
    exact .add (by simpa using ⟨.sym "a", hproduct⟩)
      ⟨by decide, by decide, by decide, by decide, by decide⟩
  · have hproduct : (mul [num (-1), sym "b"]).Canonical :=
      .mul (by simpa using ⟨.num (-1), .sym "b"⟩)
        ⟨by decide, by decide, by decide, by decide, by decide⟩
    exact .add (by simpa using ⟨.sym "a", hproduct, canonical_square⟩)
      ⟨by decide, by decide, by decide, by decide, by decide⟩
  · have hproduct : (mul [num (-1), inner]).Arithmetic :=
      .mul (by simpa using ⟨.num (-1), arithmetic_inner⟩)
    exact .add (by simpa using ⟨arithmetic_letter "a" (by decide), hproduct⟩)
  · have hproduct : (mul [num (-1), sym "b"]).Arithmetic :=
      .mul (by simpa using ⟨.num (-1), arithmetic_letter "b" (by decide)⟩)
    exact .add (by simpa using ⟨arithmetic_letter "a" (by decide), hproduct, arithmetic_square⟩)

end Expr

end Stencil
