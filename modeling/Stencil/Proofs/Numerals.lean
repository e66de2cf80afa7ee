import Mathlib.Algebra.Order.Ring.Rat
import Stencil.Fraction

/-!
This module contains the texts of numbers. A number is known from its text, also where other text
follows that does not go on with a digit.
-/

namespace Stencil

theorem append_inj_of_forall {α : Type} {p : α → Bool} {as bs r r' : List α}
    (has : ∀ a ∈ as, p a = true) (hbs : ∀ b ∈ bs, p b = true)
    (hr : ∀ c ∈ r.head?, p c = false) (hr' : ∀ c ∈ r'.head?, p c = false)
    (h : as ++ r = bs ++ r') : as = bs ∧ r = r' := by
  have htake {as r : List α} (has : ∀ a ∈ as, p a = true) (hr : ∀ c ∈ r.head?, p c = false) :
      (as ++ r).takeWhile p = as := by
    rw [List.takeWhile_append_of_pos has]
    cases r with
    | nil => simp
    | cons c r => simp [hr c rfl]
  have heq : as = bs := by rw [← htake has hr, h, htake hbs hr']
  exact ⟨heq, List.append_cancel_left (heq ▸ h)⟩

theorem natText_inj {m n : Nat} (h : toString m = toString n) : m = n := by
  rw [Nat.toString_eq_repr, Nat.toString_eq_repr, Nat.repr_eq_ofList_toDigits,
    Nat.repr_eq_ofList_toDigits, String.ofList_inj] at h
  rw [← Nat.ofDigitChars_ten_toDigits (n := m), h, Nat.ofDigitChars_ten_toDigits]

theorem isDigit_of_mem_natText {n : Nat} {c : Char} (h : c ∈ (toString n).toList) :
    c.isDigit = true := by
  rw [Nat.toString_eq_repr, Nat.toList_repr] at h
  exact Nat.isDigit_of_mem_toDigits (by decide) (by decide) h

theorem exists_natText_eq_cons (n : Nat) :
    ∃ c cs, (toString n).toList = c :: cs ∧ c.isDigit = true := by
  cases h : (toString n).toList with
  | nil =>
    rw [Nat.toString_eq_repr, Nat.toList_repr] at h
    exact absurd h Nat.toDigits_ne_nil
  | cons c cs => exact ⟨c, cs, rfl, isDigit_of_mem_natText (h ▸ List.mem_cons_self ..)⟩

section Followed

variable {r r' : List Char} (hr : ∀ c ∈ r.head?, c.isDigit = false)
  (hr' : ∀ c ∈ r'.head?, c.isDigit = false)
include hr hr'

theorem natText_append_inj {m n : Nat}
    (h : (toString m).toList ++ r = (toString n).toList ++ r') : m = n ∧ r = r' := by
  obtain ⟨hdigits, hrest⟩ := append_inj_of_forall (fun _ => isDigit_of_mem_natText)
    (fun _ => isDigit_of_mem_natText) hr hr' h
  exact ⟨natText_inj (String.toList_inj.1 hdigits), hrest⟩

end Followed

theorem intText_of_nonneg {i : Int} (h : 0 ≤ i) : toString i = toString i.natAbs := by
  rw [Int.toString_eq_repr, Int.repr_eq_if, if_pos h, Nat.toString_eq_repr]
  congr 1
  omega

theorem intText_of_neg {i : Int} (h : i < 0) : toString i = "-" ++ toString i.natAbs := by
  rw [Int.toString_eq_repr, Int.repr_eq_if, if_neg (by omega), Nat.toString_eq_repr]
  congr 2
  omega

theorem toList_intText (i : Int) :
    (toString i).toList = (if i < 0 then ['-'] else []) ++ (toString i.natAbs).toList := by
  split
  · next h => rw [intText_of_neg h, String.toList_append]; rfl
  · next h => rw [intText_of_nonneg (by omega)]; rfl

theorem sign_append_inj {b c : Bool} {cs cs' : List Char} (hcs : cs.head? ≠ some '-')
    (hcs' : cs'.head? ≠ some '-')
    (h : (if b then ['-'] else []) ++ cs = (if c then ['-'] else []) ++ cs') :
    b = c ∧ cs = cs' := by
  cases b with
  | true =>
    cases c with
    | true => exact ⟨rfl, (List.cons.inj h).2⟩
    | false => exact absurd (congrArg List.head? h.symm) hcs'
  | false =>
    cases c with
    | true => exact absurd (congrArg List.head? h) hcs
    | false => exact ⟨rfl, h⟩

theorem head?_natText_append_ne (n : Nat) (r : List Char) :
    ((toString n).toList ++ r).head? ≠ some '-' := by
  obtain ⟨c, cs, hcons, hdigit⟩ := exists_natText_eq_cons n
  rw [hcons]
  intro h
  rw [Option.some.inj h] at hdigit
  exact absurd hdigit (by decide)

theorem intText_append_inj {i j : Int} {r r' : List Char}
    (hr : ∀ c ∈ r.head?, c.isDigit = false) (hr' : ∀ c ∈ r'.head?, c.isDigit = false)
    (h : (toString i).toList ++ r = (toString j).toList ++ r') : i = j ∧ r = r' := by
  rw [toList_intText, toList_intText, List.append_assoc, List.append_assoc] at h
  have hsign := sign_append_inj (b := decide (i < 0)) (c := decide (j < 0))
    (head?_natText_append_ne _ r) (head?_natText_append_ne _ r') (by simpa using h)
  obtain ⟨habs, hrest⟩ := natText_append_inj hr hr' hsign.2
  have hlt : i < 0 ↔ j < 0 := by simpa using hsign.1
  exact ⟨by omega, hrest⟩

namespace Fraction

theorem toList_text {q : Rat} (hq : 0 ≤ q) :
    (text q).toList = (toString q.num.natAbs).toList ++
      if q.den = 1 then [] else '/' :: (toString q.den).toList := by
  have hnum := intText_of_nonneg (Rat.num_nonneg.2 hq)
  unfold text
  split
  · rw [hnum, List.append_nil]
  · have hratio : ratioText q = toString q.num ++ "/" ++ toString q.den := rfl
    rw [hratio, hnum, String.toList_append, String.toList_append, List.append_assoc]
    rfl

theorem toList_text_neg {q : Rat} (hq : q < 0) : (text q).toList = '-' :: (text (-q)).toList := by
  have hnum := intText_of_neg (Rat.num_neg.2 hq)
  have habs : (-q).num.natAbs = q.num.natAbs := by rw [Rat.num_neg_eq_neg_num, Int.natAbs_neg]
  rw [toList_text (Left.nonneg_neg_iff.2 hq.le), Rat.den_neg_eq_den, habs]
  unfold text
  split
  · rw [hnum, List.append_nil, String.toList_append]
    rfl
  · have hratio : ratioText q = toString q.num ++ "/" ++ toString q.den := rfl
    rw [hratio, hnum, String.toList_append, String.toList_append, String.toList_append]
    simp

theorem text_append_inj {p q : Rat} (hp : 0 ≤ p) (hq : 0 ≤ q) {r r' : List Char}
    (hr : ∀ c ∈ r.head?, c.isDigit = false ∧ c ≠ '/')
    (hr' : ∀ c ∈ r'.head?, c.isDigit = false ∧ c ≠ '/')
    (h : (text p).toList ++ r = (text q).toList ++ r') : p = q ∧ r = r' := by
  have hnum {p q : Rat} (hp : 0 ≤ p) (hq : 0 ≤ q) (h : p.num.natAbs = q.num.natAbs) :
      p.num = q.num := by
    have hp := Rat.num_nonneg.2 hp
    have hq := Rat.num_nonneg.2 hq
    omega
  have hdigit {r : List Char} (hr : ∀ c ∈ r.head?, c.isDigit = false ∧ c ≠ '/') :
      ∀ c ∈ r.head?, c.isDigit = false :=
    fun c hc => (hr c hc).1
  have hslash (cs : List Char) : ∀ c ∈ ('/' :: cs).head?, c.isDigit = false := by
    intro c hc
    obtain rfl := Option.some.inj hc
    rfl
  rw [toList_text hp, toList_text hq, List.append_assoc, List.append_assoc] at h
  split at h
  · next hdenp =>
    split at h
    · next hdenq =>
      obtain ⟨habs, hrest⟩ := natText_append_inj (hdigit hr) (hdigit hr') h
      exact ⟨Rat.ext (hnum hp hq habs) (hdenp.trans hdenq.symm), hrest⟩
    · obtain ⟨-, hrest⟩ := natText_append_inj (hdigit hr) (hslash _) h
      have hslash := hr '/' (by rw [hrest]; rfl)
      exact absurd rfl hslash.2
  · split at h
    · obtain ⟨-, hrest⟩ := natText_append_inj (hslash _) (hdigit hr') h
      have hslash := hr' '/' (by rw [← hrest]; rfl)
      exact absurd rfl hslash.2
    · obtain ⟨habs, hrest⟩ := natText_append_inj (hslash _) (hslash _) h
      obtain ⟨hden, hrest⟩ :=
        natText_append_inj (hdigit hr) (hdigit hr') (List.cons.inj hrest).2
      exact ⟨Rat.ext (hnum hp hq habs) hden, hrest⟩

end Fraction

end Stencil
