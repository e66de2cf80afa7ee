import Mathlib.Data.List.DropRight
import Mathlib.Data.Set.Card
import Stencil.Proofs.SymbolTable

/-!
This module contains what tables know after any sequence of calls. Under each name there is what the
first accepted declaration of the name declared, of those since everything was forgotten the last
time. So a table is the same as two maps from names, whatever keys the names have got on the way.
-/

namespace Stencil

namespace SymbolTable

inductive Call where
  | dimension (d : Dimension)
  | function (f : GridFunction)
  | clear

namespace Call

def isDeclaration : Call → Bool
  | dimension _ => true
  | function _ => true
  | clear => false

theorem eq_clear {c : Call} (h : c.isDeclaration = false) : c = clear := by
  cases c with
  | clear => rfl
  | dimension | function => cases h

def dimension? : Call → Option Dimension
  | dimension d => some d
  | _ => none

def function? : Call → Option GridFunction
  | function f => some f
  | _ => none

end Call

def perform (t : SymbolTable) : Call → SymbolTable
  | .dimension d => (t.declareDimension d).2
  | .function f => (t.declareFunction f).2
  | .clear => t.clear

def accepts (t : SymbolTable) : Call → Bool
  | .dimension d => (t.declareDimension d).1.isOk
  | .function f => (t.declareFunction f).1.isOk
  | .clear => true

def after (calls : List Call) : SymbolTable := calls.foldl perform empty

def log (t : SymbolTable) : List Call → List (Call × Bool)
  | [] => []
  | c :: calls => (c, t.accepts c) :: log (t.perform c) calls

/-- The declarations that succeed since everything is forgotten the last time, in order. -/
def accepted (calls : List Call) : List Call :=
  (((log empty calls).rtakeWhile (·.1.isDeclaration)).filter (·.2)).map (·.1)

def SameLookups (t u : SymbolTable) : Prop :=
  (∀ name, t.dimension? name = u.dimension? name) ∧ ∀ name, t.function? name = u.function? name

variable {t u : SymbolTable}

theorem after_concat (calls : List Call) (c : Call) :
    after (calls ++ [c]) = (after calls).perform c :=
  List.foldl_concat ..

theorem log_concat (t : SymbolTable) (calls : List Call) (c : Call) :
    log t (calls ++ [c]) = log t calls ++ [(c, (calls.foldl perform t).accepts c)] := by
  induction calls generalizing t with
  | nil => rfl
  | cons c' calls ih => rw [List.cons_append, log, ih, log, List.foldl_cons, List.cons_append]

theorem accepted_concat_clear (calls : List Call) : accepted (calls ++ [.clear]) = [] := by
  unfold accepted
  rw [log_concat, List.rtakeWhile_concat_neg]
  · rfl
  · exact Bool.false_ne_true

theorem accepted_concat (calls : List Call) {c : Call} (hc : c.isDeclaration = true) :
    accepted (calls ++ [c]) =
      accepted calls ++ if (after calls).accepts c = true then [c] else [] := by
  have hentry : ([(c, (after calls).accepts c)].filter (·.2)).map (·.1) =
      if (after calls).accepts c = true then [c] else [] := by
    cases (after calls).accepts c <;> rfl
  unfold accepted
  rw [log_concat, List.rtakeWhile_concat, if_pos hc, List.filter_append, List.map_append, ← hentry]
  rfl

theorem isOk_iff {ε α : Type} {x : Except ε α} : x.isOk = true ↔ ∃ a, x = .ok a := by
  cases x <;> simp [Except.isOk, Except.toBool]

theorem accepts_dimension {d : Dimension} :
    t.accepts (.dimension d) = true ↔
      t.dimension? d.name = none ∨ t.dimension? d.name = some d := by
  rw [accepts, isOk_iff]
  simp only [declareDimension_eq_ok, exists_eq_left]

theorem accepts_function {f : GridFunction} :
    t.accepts (.function f) = true ↔ f.malformation? = none ∧
      (t.function? f.name = none ∨ t.function? f.name = some f) := by
  rw [accepts, isOk_iff]
  simp only [declareFunction_eq_ok, exists_eq_left]

section FirstOf

variable {α : Type} {g : Call → Option α} {c : Call} {a : α} {p : Prop} [Decidable p] {ok : Bool}

theorem find?_of_some (hg : g c = some a) (q : α → Bool) :
    ((if ok = true then [c] else []).filterMap g).find? q =
      if ok = true ∧ q a = true then some a else none := by
  cases ok with
  | false => rfl
  | true => cases hq : q a <;> simp [hg, hq]

theorem find?_of_none (hg : g c = none) (q : α → Bool) :
    ((if ok = true then [c] else []).filterMap g).find? q = none := by
  cases ok <;> simp [hg]

theorem ite_getD_eq_or {lookup : String → Option α} {key name : String}
    (hok : ok = true ↔ p ∧ (lookup key = none ∨ lookup key = some a)) :
    (if p ∧ key = name then some ((lookup key).getD a) else lookup name) =
      (lookup name).or (if ok = true ∧ key = name then some a else none) := by
  by_cases hname : key = name
  · subst hname
    cases hbound : lookup key with
    | none => simp [hok, hbound]
    | some known => by_cases hp : p <;> simp [hp]
  · simp [hname]

end FirstOf

theorem dimension?_perform (t : SymbolTable) {c : Call} (hc : c.isDeclaration = true)
    (name : String) :
    (t.perform c).dimension? name = (t.dimension? name).or
      (((if t.accepts c = true then [c] else []).filterMap Call.dimension?).find?
        (·.name = name)) := by
  cases c with
  | dimension d =>
    have hok : t.accepts (.dimension d) = true ↔
        True ∧ (t.dimension? d.name = none ∨ t.dimension? d.name = some d) := by
      rw [accepts_dimension, true_and]
    rw [perform, dimension?_declareDimension, find?_of_some (g := Call.dimension?) rfl]
    simpa using ite_getD_eq_or hok
  | function f => rw [perform, dimension?_declareFunction, find?_of_none rfl, Option.or_none]
  | clear => cases hc

theorem function?_perform (t : SymbolTable) {c : Call} (hc : c.isDeclaration = true)
    (name : String) :
    (t.perform c).function? name = (t.function? name).or
      (((if t.accepts c = true then [c] else []).filterMap Call.function?).find?
        (·.name = name)) := by
  cases c with
  | dimension d => rw [perform, function?_declareDimension, find?_of_none rfl, Option.or_none]
  | function f =>
    rw [perform, function?_declareFunction, find?_of_some (g := Call.function?) rfl]
    simpa using ite_getD_eq_or accepts_function
  | clear => cases hc

theorem dimension?_clear (t : SymbolTable) (name : String) : t.clear.dimension? name = none :=
  Option.bind_eq_none_iff.2 fun _ _ => rfl

theorem function?_clear (t : SymbolTable) (name : String) : t.clear.function? name = none :=
  Option.bind_eq_none_iff.2 fun _ _ => rfl

section Lookup

variable {α : Type} {lookup : SymbolTable → String → Option α}

theorem lookup_after {g : Call → Option α} {name : String} {q : α → Bool}
    (hempty : lookup empty name = none) (hclear : ∀ t : SymbolTable, lookup t.clear name = none)
    (hperform : ∀ (t : SymbolTable) {c : Call}, c.isDeclaration = true →
      lookup (t.perform c) name = (lookup t name).or
        (((if t.accepts c = true then [c] else []).filterMap g).find? q)) (calls : List Call) :
    lookup (after calls) name = ((accepted calls).filterMap g).find? q := by
  induction calls using List.reverseRecOn with
  | nil => exact hempty
  | append_singleton calls c ih =>
    rw [after_concat]
    cases hc : c.isDeclaration with
    | true =>
      rw [hperform _ hc, accepted_concat calls hc, List.filterMap_append, List.find?_append, ih]
    | false =>
      obtain rfl := Call.eq_clear hc
      rw [accepted_concat_clear]
      exact hclear _

theorem lookup_foldl_filter {keep : Call → Bool}
    (hkeep : ∀ {t u : SymbolTable} {c : Call}, keep c = true → lookup t = lookup u →
      lookup (t.perform c) = lookup (u.perform c))
    (hskip : ∀ (t : SymbolTable) {c : Call}, keep c = false → lookup (t.perform c) = lookup t)
    (h : lookup t = lookup u) (calls : List Call) :
    lookup (calls.foldl perform t) = lookup ((calls.filter keep).foldl perform u) := by
  induction calls generalizing t u with
  | nil => exact h
  | cons c calls ih =>
    cases hc : keep c with
    | true =>
      rw [List.filter_cons, if_pos hc]
      exact ih (hkeep hc h)
    | false =>
      rw [List.filter_cons, if_neg (Bool.eq_false_iff.1 hc)]
      exact ih ((hskip t hc).trans h)

end Lookup

theorem dimension?_after (calls : List Call) (name : String) :
    (after calls).dimension? name =
      ((accepted calls).filterMap Call.dimension?).find? (·.name = name) :=
  lookup_after rfl (dimension?_clear · name) (fun t _ hc => dimension?_perform t hc name) calls

theorem function?_after (calls : List Call) (name : String) :
    (after calls).function? name =
      ((accepted calls).filterMap Call.function?).find? (·.name = name) :=
  lookup_after rfl (function?_clear · name) (fun t _ hc => function?_perform t hc name) calls

theorem size_eq_ncard_names {α : Type} {m : OrdMap Nat α} {n : Interner}
    (h : ∀ e ∈ m.entries, n.IsKey e.1) :
    m.size = {name | ((n.key? name).bind m.find?).isSome = true}.ncard := by
  have hmem {name : String} : name ∈ {name | ((n.key? name).bind m.find?).isSome = true} ↔
      ∃ key ∈ m.keys, n.key? name = some key := by
    simp only [Set.mem_ofPred_eq, Option.isSome_iff_exists, Option.bind_eq_some_iff,
      OrdMap.mem_keys]
    grind
  have himage : (fun name => (n.key? name).getD 0) ''
      {name | ((n.key? name).bind m.find?).isSome = true} = (m.keys.toFinset : Set Nat) := by
    ext key
    simp only [Set.mem_image, hmem, SetLike.mem_coe, List.mem_toFinset]
    constructor
    · rintro ⟨name, ⟨key', hkey', hname⟩, rfl⟩
      rwa [hname]
    · intro hkey
      obtain ⟨e, he, rfl⟩ := List.mem_map.1 hkey
      obtain ⟨name, hname⟩ := h e he
      exact ⟨name, ⟨e.1, hkey, hname⟩, by rw [hname, Option.getD_some]⟩
  have hinj : Set.InjOn (fun name => (n.key? name).getD 0)
      {name | ((n.key? name).bind m.find?).isSome = true} := by
    intro name hname name' hname' heq
    obtain ⟨key, -, hkey⟩ := hmem.1 hname
    obtain ⟨key', -, hkey'⟩ := hmem.1 hname'
    simp only [hkey, hkey', Option.getD_some] at heq
    exact Interner.key?_inj hkey (heq ▸ hkey')
  rw [← hinj.ncard_image, himage, Set.ncard_coe_finset, List.toFinset_card_of_nodup m.nodup_keys]
  simp [OrdMap.size, OrdMap.keys]

theorem size_eq_ncard (t : SymbolTable) :
    t.size = {name | (t.dimension? name).isSome = true}.ncard +
      {name | (t.function? name).isSome = true}.ncard :=
  congrArg₂ (· + ·) (size_eq_ncard_names t.isKey_dimensions) (size_eq_ncard_names t.isKey_functions)

theorem SameLookups.size_eq (h : t.SameLookups u) : t.size = u.size := by
  rw [size_eq_ncard, size_eq_ncard]
  simp only [h.1, h.2]

theorem sameLookups_perform {c : Call} (h : t.accepts c = false) :
    (t.perform c).SameLookups t := by
  have hc : c.isDeclaration = true := by
    cases c with
    | clear => cases h
    | dimension | function => rfl
  constructor
  · intro name
    rw [dimension?_perform t hc, h]
    exact Option.or_none
  · intro name
    rw [function?_perform t hc, h]
    exact Option.or_none

theorem dimension?_after_filter (calls : List Call) :
    (after calls).dimension? = (after (calls.filter (·.function?.isNone))).dimension? := by
  refine lookup_foldl_filter (fun {t u c} hc h => ?_) (fun t c hc => ?_) rfl calls
  · cases c with
    | dimension d =>
      funext name
      rw [perform, perform, dimension?_declareDimension, dimension?_declareDimension, h]
    | function f => cases hc
    | clear =>
      funext name
      rw [perform, perform, dimension?_clear, dimension?_clear]
  · cases c with
    | function f => exact funext (dimension?_declareFunction t f)
    | dimension | clear => cases hc

theorem function?_after_filter (calls : List Call) :
    (after calls).function? = (after (calls.filter (·.dimension?.isNone))).function? := by
  refine lookup_foldl_filter (fun {t u c} hc h => ?_) (fun t c hc => ?_) rfl calls
  · cases c with
    | dimension d => cases hc
    | function f =>
      funext name
      rw [perform, perform, function?_declareFunction, function?_declareFunction, h]
    | clear =>
      funext name
      rw [perform, perform, function?_clear, function?_clear]
  · cases c with
    | dimension d => exact funext (function?_declareDimension t d)
    | function | clear => cases hc

/--
After any sequence of calls, the first accepted declaration of a name is what the name stands for. A
declaration is accepted if it is well-formed and its name stands for nothing else, and then it gives
what it declares. One that is not accepted changes neither what is found nor the size. Dimensions
and arrays are found as if there were only calls for them, and the size is the number of the names
of both kinds.
-/
theorem first_declaration_wins (calls : List Call) :
    (∀ name, (after calls).dimension? name =
      ((accepted calls).filterMap Call.dimension?).find? (·.name = name)) ∧
    (∀ name, (after calls).function? name =
      ((accepted calls).filterMap Call.function?).find? (·.name = name)) ∧
    (∀ d known, ((after calls).declareDimension d).1 = .ok known ↔
      known = d ∧ ((after calls).dimension? d.name = none ∨
        (after calls).dimension? d.name = some d)) ∧
    (∀ f known, ((after calls).declareFunction f).1 = .ok known ↔
      known = f ∧ f.malformation? = none ∧ ((after calls).function? f.name = none ∨
        (after calls).function? f.name = some f)) ∧
    (∀ c, (after calls).accepts c = false → ((after calls).perform c).SameLookups (after calls) ∧
      ((after calls).perform c).size = (after calls).size) ∧
    (∀ name, (after calls).dimension? name =
      (after (calls.filter (·.function?.isNone))).dimension? name) ∧
    (∀ name, (after calls).function? name =
      (after (calls.filter (·.dimension?.isNone))).function? name) ∧
    (after calls).size = {name | ((after calls).dimension? name).isSome = true}.ncard +
      {name | ((after calls).function? name).isSome = true}.ncard := by
  refine ⟨dimension?_after calls, function?_after calls, fun _ _ => declareDimension_eq_ok,
    fun _ _ => declareFunction_eq_ok, fun c hc => ?_, ?_, ?_, size_eq_ncard _⟩
  · exact ⟨sameLookups_perform hc, (sameLookups_perform hc).size_eq⟩
  · exact congrFun (dimension?_after_filter calls)
  · exact congrFun (function?_after_filter calls)

end SymbolTable

end Stencil
