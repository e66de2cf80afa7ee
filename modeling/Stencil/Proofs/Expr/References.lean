import Stencil.Proofs.Expr.Replace

/-!
This module contains which array elements and scalars occur in expressions that are built or
rewritten: none that were not there before.
-/

namespace Stencil

namespace Expr

variable {r : Reference}

theorem Within.mem_references {x e : Expr} (h : x.Within e) (hr : r ∈ x.references) :
    r ∈ e.references := by
  obtain ⟨f, is, hwithin, hr⟩ := Expr.mem_references.1 hr
  exact Expr.mem_references.2 ⟨f, is, hwithin.trans h, hr⟩

theorem Within.mem_symbols {x e : Expr} (h : x.Within e) {s : String} (hs : s ∈ x.symbols) :
    s ∈ e.symbols := by
  rw [Expr.mem_symbols] at hs ⊢
  rcases hs with hs | ⟨r, hr, hs⟩
  · rw [mem_valueSymbols] at hs ⊢
    exact .inl (hs.trans h)
  · exact .inr ⟨r, h.mem_references hr, hs⟩

theorem mem_references_sum {es : List Expr} (hr : r ∈ (sum es).value.references) :
    ∃ e ∈ es, r ∈ e.references := by
  obtain ⟨f, is, hwithin, hr⟩ := mem_references.1 hr
  obtain ⟨e, he, hwithin⟩ := exists_within_of_sum rfl hwithin
  exact ⟨e, he, hwithin.mem_references hr⟩

theorem mem_references_product {es : List Expr} (hr : r ∈ (product es).value.references) :
    ∃ e ∈ es, r ∈ e.references := by
  obtain ⟨f, is, hwithin, hr⟩ := mem_references.1 hr
  obtain ⟨e, he, hwithin⟩ := exists_within_of_product rfl hwithin
  exact ⟨e, he, hwithin.mem_references hr⟩

theorem mem_references_neg {e : Expr} (hr : r ∈ (neg e).value.references) : r ∈ e.references := by
  obtain ⟨e', he', hr⟩ := mem_references_product hr
  rcases List.mem_cons.1 he' with rfl | he'
  · cases hr
  · rwa [List.mem_singleton.1 he'] at hr

theorem mem_references_power {b : Expr} {n : Int} (hr : r ∈ (power b n).value.references) :
    r ∈ b.references := by
  obtain ⟨f, is, hwithin, hr⟩ := mem_references.1 hr
  exact (within_of_power rfl hwithin).mem_references hr

theorem mem_references_replace {σ : Expr → Option Expr} {e : Expr}
    (hr : r ∈ (replace σ e).value.references) :
    r ∈ e.references ∨ ∃ a b, a.Within e ∧ σ a = some b ∧ r ∈ b.references := by
  obtain ⟨f, is, hwithin, hr⟩ := mem_references.1 hr
  rcases within_replace rfl hwithin with ⟨hwithin, _⟩ | ⟨a, b, ha, hab, hwithin⟩
  · exact .inl (hwithin.mem_references hr)
  · exact .inr ⟨a, b, ha, hab, hwithin.mem_references hr⟩

theorem mem_symbols_replace {σ : Expr → Option Expr} {e : Expr} {s : String}
    (hs : s ∈ (replace σ e).value.symbols) :
    s ∈ e.symbols ∨ ∃ a b, a.Within e ∧ σ a = some b ∧ s ∈ b.symbols := by
  simp only [mem_symbols] at hs ⊢
  rcases hs with hs | ⟨r, hr, hs⟩
  · rw [mem_valueSymbols] at hs
    rcases within_replace rfl hs with ⟨hs, -⟩ | ⟨a, b, ha, hab, hs⟩
    · exact .inl (.inl (mem_valueSymbols.2 hs))
    · exact .inr ⟨a, b, ha, hab, .inl (mem_valueSymbols.2 hs)⟩
  · rcases mem_references_replace hr with hr | ⟨a, b, ha, hab, hr⟩
    · exact .inl (.inr ⟨r, hr, hs⟩)
    · exact .inr ⟨a, b, ha, hab, .inr ⟨r, hr, hs⟩⟩

end Expr

end Stencil
