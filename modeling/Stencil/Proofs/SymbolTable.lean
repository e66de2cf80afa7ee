import Stencil.Proofs.Scope.Total
import Stencil.SymbolTable

/-!
This module contains the tables of declared dimensions and arrays. What is found under a name after
a declaration is said without the keys of names. Declarations only add to a table, so what refers to
declared things keeps referring to them, and a table in which everything refers to what is declared
stays such a table.
-/

namespace Stencil

namespace SymbolTable

def Declares (t : SymbolTable) (d : Dimension) : Prop := t.dimension? d.name = some d

structure Resolves (t : SymbolTable) (r : Reference) : Prop where
  function : t.function? r.function.name = some r.function
  complete : r.Complete

structure ExtendedBy (t u : SymbolTable) : Prop where
  dimension : ∀ name d, t.dimension? name = some d → u.dimension? name = some d
  function : ∀ name f, t.function? name = some f → u.function? name = some f

variable {t u : SymbolTable}

theorem Declares.mono (h : t.ExtendedBy u) {d : Dimension} (hd : t.Declares d) : u.Declares d :=
  h.dimension _ _ hd

theorem Resolves.mono (h : t.ExtendedBy u) {r : Reference} (hr : t.Resolves r) : u.Resolves r :=
  ⟨h.function _ _ hr.function, hr.complete⟩

end SymbolTable

structure Dimension.WellFormed (t : SymbolTable) (d : Dimension) : Prop where
  parent : ∀ p, d.parent? = some p → t.Declares p
  factor : ∀ name p c, d = conditional name p c → 0 < c

/--
The tables of an array go together with its dimensions, and its dimensions and the arrays that its
extents refer to are declared.
-/
structure GridFunction.WellFormed (t : SymbolTable) (f : GridFunction) : Prop where
  shape : f.shape.length = f.dimensions.length
  halo : f.halo.length = f.dimensions.length
  padding : f.padding.length = f.dimensions.length
  timeSize : (∃ d ∈ f.dimensions, d.isStepping = true) → f.timeSize.isSome = true
  dimensions : ∀ d ∈ f.dimensions, t.Declares d
  extents : ∀ e ∈ f.shape, ∀ r ∈ e.references, t.Resolves r

/-- Everything is declared under its own name and refers to what is declared. -/
structure SymbolTable.WellFormed (t : SymbolTable) : Prop where
  dimension : ∀ name d, t.dimension? name = some d → d.name = name ∧ d.WellFormed t
  function : ∀ name f, t.function? name = some f → f.name = name ∧ GridFunction.WellFormed t f

theorem Dimension.WellFormed.mono {t u : SymbolTable} (h : t.ExtendedBy u) {d : Dimension}
    (hd : d.WellFormed t) : d.WellFormed u where
  parent p hp := (hd.parent p hp).mono h
  factor := hd.factor

theorem GridFunction.WellFormed.mono {t u : SymbolTable} (h : t.ExtendedBy u) {f : GridFunction}
    (hf : GridFunction.WellFormed t f) : GridFunction.WellFormed u f where
  shape := hf.shape
  halo := hf.halo
  padding := hf.padding
  timeSize := hf.timeSize
  dimensions d hd := (hf.dimensions d hd).mono h
  extents e he r hr := (hf.extents e he r hr).mono h

theorem GridFunction.wellFormed_of_malformation? {t : SymbolTable} {f : GridFunction}
    (h : f.malformation? = none) (hdimensions : ∀ d ∈ f.dimensions, t.Declares d)
    (hextents : ∀ e ∈ f.shape, ∀ r ∈ e.references, t.Resolves r) :
    GridFunction.WellFormed t f := by
  unfold FunctionDecl.malformation? at h
  simp only [ne_eq, ite_not] at h
  split at h
  · next hshape =>
    split at h
    · next hhalo =>
      split at h
      · next hpadding =>
        split at h
        · cases h
        · next htime =>
          refine ⟨hshape, hhalo, hpadding, ?_, hdimensions, hextents⟩
          intro hstepping
          rw [← List.any_eq_true] at hstepping
          simpa [hstepping, Option.isSome_iff_ne_none] using htime
      · cases h
    · cases h
  · cases h

namespace SymbolTable

variable {t u : SymbolTable}

theorem dimension_eq_ok {name : String} {d : Dimension} :
    t.dimension name = .ok d ↔ t.dimension? name = some d := by
  unfold dimension
  split
  · next h => rw [h, Except.ok.injEq, Option.some.injEq]
  · next h => rw [h]; simp

theorem WellFormed.declares (ht : t.WellFormed) {name : String} {d : Dimension}
    (h : t.dimension name = .ok d) : t.Declares d := by
  rw [dimension_eq_ok] at h
  rw [Declares, (ht.dimension name d h).1]
  exact h

theorem wellFormed_empty : empty.WellFormed where
  dimension name d h := by cases h
  function name f h := by cases h

section Lookup

variable {α : Type} {m : OrdMap Nat α} {n : Interner}

theorem find?_intern (h : ∀ e ∈ m.entries, n.IsKey e.1) (name : String) :
    m.find? (n.intern name).1 = (n.key? name).bind m.find? := by
  cases hkey : n.key? name with
  | some key => rw [(n.key?_intern name).1 key hkey, Option.bind_some]
  | none =>
    rw [Option.bind_none, OrdMap.find?_eq_none_iff]
    intro hmem
    obtain ⟨e, he, heq⟩ := List.mem_map.1 hmem
    exact Interner.not_isKey_intern hkey (heq ▸ h e he)

theorem bind_key?_intern (h : ∀ e ∈ m.entries, n.IsKey e.1) (name name' : String) :
    ((n.intern name).2.key? name').bind m.find? = (n.key? name').bind m.find? := by
  rw [(n.key?_intern name).2]
  split
  · next heq => rw [Option.bind_some, find?_intern h, heq]
  · rfl

variable [DecidableEq α]

theorem declareAt_eq_ok (h : ∀ e ∈ m.entries, n.IsKey e.1) {name : String} {a b : α} :
    (declareAt m (n.intern name).1 name a).1 = .ok b ↔
      b = a ∧ ((n.key? name).bind m.find? = none ∨ (n.key? name).bind m.find? = some a) := by
  unfold declareAt
  rw [find?_intern h]
  cases (n.key? name).bind m.find? with
  | none => simp [eq_comm]
  | some known =>
    by_cases hknown : known = a
    · simp [hknown, eq_comm]
    · simp [hknown]

theorem bind_key?_declareAt (h : ∀ e ∈ m.entries, n.IsKey e.1) (name name' : String) (a : α) :
    ((n.intern name).2.key? name').bind (declareAt m (n.intern name).1 name a).2.find? =
      if name = name' then some (((n.key? name).bind m.find?).getD a)
      else (n.key? name').bind m.find? := by
  unfold declareAt
  rw [find?_intern h]
  cases hfind : (n.key? name).bind m.find? with
  | some known =>
    dsimp only
    rw [bind_key?_intern h]
    split
    · next heq =>
      rw [← heq]
      exact hfind
    · rfl
  | none =>
    dsimp only
    by_cases heq : name = name'
    · subst heq
      rw [(n.key?_intern name).2, if_pos rfl, if_pos rfl, Option.bind_some, OrdMap.find?_insert,
        if_pos rfl, Option.getD_none]
    · rw [if_neg heq, ← bind_key?_intern h name name']
      cases hkey : (n.intern name).2.key? name' with
      | none => rfl
      | some key =>
        have hne : (n.intern name).1 ≠ key := by
          rintro rfl
          have hself : (n.intern name).2.key? name = some (n.intern name).1 := by
            rw [(n.key?_intern name).2, if_pos rfl]
          exact heq (Interner.key?_inj hself hkey)
        rw [Option.bind_some, Option.bind_some, OrdMap.find?_insert, if_neg hne]

end Lookup

theorem dimension?_declareDimension (t : SymbolTable) (d : Dimension) (name : String) :
    (t.declareDimension d).2.dimension? name =
      if d.name = name then some ((t.dimension? d.name).getD d) else t.dimension? name :=
  bind_key?_declareAt t.isKey_dimensions d.name name d

theorem function?_declareDimension (t : SymbolTable) (d : Dimension) (name : String) :
    (t.declareDimension d).2.function? name = t.function? name :=
  bind_key?_intern t.isKey_functions d.name name

theorem declareDimension_eq_ok {d known : Dimension} :
    (t.declareDimension d).1 = .ok known ↔
      known = d ∧ (t.dimension? d.name = none ∨ t.dimension? d.name = some d) :=
  declareAt_eq_ok t.isKey_dimensions

theorem function?_declareFunction (t : SymbolTable) (f : GridFunction) (name : String) :
    (t.declareFunction f).2.function? name =
      if f.malformation? = none ∧ f.name = name then some ((t.function? f.name).getD f)
      else t.function? name := by
  unfold declareFunction
  split
  · next hmalformed => simp [hmalformed]
  · next hformed =>
    simp only [hformed, true_and]
    exact bind_key?_declareAt t.isKey_functions f.name name f

theorem dimension?_declareFunction (t : SymbolTable) (f : GridFunction) (name : String) :
    (t.declareFunction f).2.dimension? name = t.dimension? name := by
  unfold declareFunction
  split
  · rfl
  · exact bind_key?_intern t.isKey_dimensions f.name name

theorem declareFunction_eq_ok {f known : GridFunction} :
    (t.declareFunction f).1 = .ok known ↔ known = f ∧ f.malformation? = none ∧
      (t.function? f.name = none ∨ t.function? f.name = some f) := by
  unfold declareFunction
  split
  · next hmalformed => simp [hmalformed]
  · next hformed =>
    simp only [hformed, true_and]
    exact declareAt_eq_ok t.isKey_functions

theorem WellFormed.extend (ht : t.WellFormed) (h : t.ExtendedBy u)
    (hdimension : ∀ name d, u.dimension? name = some d →
      d.name = name ∧ d.WellFormed t ∨ t.dimension? name = some d)
    (hfunction : ∀ name f, u.function? name = some f →
      f.name = name ∧ GridFunction.WellFormed t f ∨ t.function? name = some f) :
    u.WellFormed := by
  constructor
  · intro name d hd
    obtain ⟨hname, hwell⟩ := (hdimension name d hd).elim id (ht.dimension name d)
    exact ⟨hname, hwell.mono h⟩
  · intro name f hf
    obtain ⟨hname, hwell⟩ := (hfunction name f hf).elim id (ht.function name f)
    exact ⟨hname, hwell.mono h⟩

theorem getD_cases {α : Type} {bound : Option α} {a b : α} (h : some (bound.getD a) = some b) :
    a = b ∨ bound = some b := by
  cases bound with
  | none => exact .inl (Option.some.inj h)
  | some known => exact .inr h

theorem WellFormed.declareDimension (ht : t.WellFormed) {d : Dimension} (hd : d.WellFormed t) :
    (t.declareDimension d).2.WellFormed := by
  apply ht.extend
  · constructor
    · intro name e he
      rw [dimension?_declareDimension]
      split
      · next heq => rw [heq, he, Option.getD_some]
      · exact he
    · intro name f hf
      rw [function?_declareDimension]
      exact hf
  · intro name e he
    rw [dimension?_declareDimension] at he
    split at he
    · next heq =>
      rcases getD_cases he with rfl | he
      · exact .inl ⟨heq, hd⟩
      · exact .inr (heq ▸ he)
    · exact .inr he
  · intro name f hf
    rw [function?_declareDimension] at hf
    exact .inr hf

theorem WellFormed.declareFunction (ht : t.WellFormed) {f : GridFunction}
    (hdimensions : ∀ d ∈ f.dimensions, t.Declares d)
    (hextents : ∀ e ∈ f.shape, ∀ r ∈ e.references, t.Resolves r) :
    (t.declareFunction f).2.WellFormed := by
  apply ht.extend
  · constructor
    · intro name d hd
      rw [dimension?_declareFunction]
      exact hd
    · intro name g hg
      rw [function?_declareFunction]
      split
      · next heq => rw [heq.2, hg, Option.getD_some]
      · exact hg
  · intro name d hd
    rw [dimension?_declareFunction] at hd
    exact .inr hd
  · intro name g hg
    rw [function?_declareFunction] at hg
    split at hg
    · next heq =>
      rcases getD_cases hg with rfl | hg
      · exact .inl ⟨heq.2,
          GridFunction.wellFormed_of_malformation? heq.1 hdimensions hextents⟩
      · exact .inr (heq.2 ▸ hg)
    · exact .inr hg

end SymbolTable

end Stencil
