import Stencil.Proofs.Affine.RoundTrip
import Stencil.Proofs.Numerals
import Stencil.Proofs.Slots

/-!
This module contains the fact that ring buffers and slots match: each index into a ring buffer has
exactly one slot. Slots are named by their dimension and their number among the slots of a root, and
as the two are put side by side, a name does not always tell where the one ends and the other
begins.
-/

namespace Stencil

theorem Affine.ofExpr_simplify {e : Expr} (h : e.simplify.fits = true) :
    ofExpr e.simplify.value = ofExpr e := by
  have hfits := h
  simp only [Expr.simplify, Checked.fits_bind, Bool.and_eq_true] at hfits
  cases hform : (ofExpr e).value with
  | none => simp only [Expr.simplify, Checked.value_bind, hform, Checked.value_pure]
  | some a =>
    rw [hform] at hfits
    have he : ofExpr e = pure (some a) := Checked.eq_pure_iff.2 ⟨hfits.1, hform⟩
    have hwords : a.IsWords := ⟨fits_toExpr.1 hfits.2, isWords_coeff_ofExpr e hfits.1 hform⟩
    rw [Expr.simplify_of_affine he, ofExpr_toExpr (reduced_ofExpr e hform) hwords, he]

namespace Slot

theorem fits_sameOrigin (a b : Expr) :
    (sameOrigin a b).fits = ((Affine.ofExpr a).fits && (Affine.ofExpr b).fits) := by
  unfold sameOrigin
  simp only [Checked.fits_bind]
  split <;> simp

theorem key_simplify {e : Expr} (h : e.simplify.fits = true) : key e.simplify.value = key e := by
  unfold key
  rw [Affine.ofExpr_simplify h]
  cases hform : (Affine.ofExpr e).value with
  | none => simp only [Expr.simplify, Checked.value_bind, hform, Checked.value_pure]
  | some a => rfl

structure Listed (as : List Axis) (root : Dimension) (ss : List Slot) : Prop where
  /-- Every slot was added for an index function. -/
  drawn : ∀ s ∈ ss, ∃ a ∈ as, s.stepping = a.dimension ∧ s.origin = a.index.simplify.value ∧
    Needs root s.modulo s.origin a
  /-- No slot stands for the index of another one. -/
  apart : ss.Pairwise fun s t => ¬t.Serves s.modulo s.origin
  named : ∀ (i : Nat) (s : Slot), ss[i]? = some s → s.name = s.stepping.name ++ toString i

theorem Listed.nil (as : List Axis) (root : Dimension) : Listed as root [] :=
  ⟨by simp, .nil, by simp⟩

theorem Listed.concat {as : List Axis} {a : Axis} {modulo : Nat} {ss : List Slot}
    (h : Listed as a.dimension.root ss) (ha : a ∈ as) (hsize : a.function.timeSize = some modulo)
    (hstepping : a.dimension.isStepping = true)
    (hnew : ¬∃ s ∈ ss, s.Serves modulo a.index.simplify.value) :
    Listed as a.dimension.root (ss ++ [⟨a.dimension.name ++ toString ss.length, a.dimension,
      a.index.simplify.value, modulo⟩]) where
  drawn s hs := by
    rcases List.mem_append.1 hs with hs | hs
    · exact h.drawn s hs
    · obtain rfl := List.mem_singleton.1 hs
      exact ⟨a, ha, rfl, rfl, hstepping, rfl, hsize, rfl⟩
  apart := by
    rw [List.pairwise_append]
    refine ⟨h.apart, List.pairwise_singleton _ _, fun s hs t ht hserves => ?_⟩
    obtain rfl := List.mem_singleton.1 ht
    exact hnew ⟨s, hs, hserves.1.symm, hserves.2.symm⟩
  named i s hs := by
    rw [List.getElem?_append] at hs
    split at hs
    · exact h.named i s hs
    · next hlength =>
      rw [List.getElem?_singleton] at hs
      split at hs
      · next hlast =>
        obtain rfl := Option.some.inj hs
        rw [show i = ss.length by omega]
      · cases hs

theorem listed_register {as : List Axis} {slots : OrdMap Dimension (List Slot)} {a : Axis}
    (h : ∀ root, Listed as root ((slots.find? root).getD [])) (ha : a ∈ as) (root : Dimension) :
    Listed as root (((register slots a).value.find? root).getD []) := by
  unfold register
  split
  · next modulo hsize hstepping =>
    simp only [Checked.value_bind]
    split
    · exact h root
    · next hany =>
      rw [Checked.value_pure, OrdMap.find?_insert]
      split
      · next hroot =>
        subst hroot
        rw [value_anyFor] at hany
        exact (h a.dimension.root).concat ha hsize hstepping hany
      · exact h root
  · exact h root

theorem listed_collect (eqs : List Equation) (root : Dimension) :
    Listed (eqs.flatMap Equation.axes) root (((collect eqs).value.find? root).getD []) := by
  unfold collect
  rw [Checked.value_foldlM]
  refine List.foldlRecOn (motive := fun slots : OrdMap Dimension (List Slot) =>
    ∀ root, Listed _ root ((slots.find? root).getD [])) _ _ ?_ ?_ root
  · exact fun root => .nil _ root
  · exact fun slots hslots a ha root => listed_register hslots ha root

theorem fits_simplify_of_collect {eqs : List Equation} (h : (collect eqs).fits = true) {a : Axis}
    (ha : a ∈ eqs.flatMap Equation.axes) {modulo : Nat} (hsize : a.function.timeSize = some modulo)
    (hstepping : a.dimension.isStepping = true) : a.index.simplify.fits = true := by
  obtain ⟨slots, hfits⟩ := Checked.exists_fits_of_foldlM h ha
  simp only [register, hsize, hstepping, Checked.fits_bind, Bool.and_eq_true] at hfits
  exact hfits.1

theorem isFor_eq_pure {s : Slot} {e : Expr} (hs : (Affine.ofExpr s.origin).fits = true)
    (he : (Affine.ofExpr e).fits = true) : s.isFor e = pure (decide (key s.origin = key e)) := by
  rw [Checked.eq_pure_iff, isFor, fits_sameOrigin, value_sameOrigin, hs, he]
  exact ⟨rfl, rfl⟩

/--
The name `d` is the name `d'` with some digits after it. They are the first digits of `j`, and what
is left of `j` is `i`.
-/
def Overlaps (d : String) (i : Nat) (d' : String) (j : Nat) : Prop :=
  ∃ w, w ≠ "" ∧ d = d' ++ w ∧ toString j = w ++ toString i

theorem overlaps_of_append {d d' w : String} {i j : Nat} (hd : d = d' ++ w)
    (hj : toString j = w ++ toString i) : d = d' ∧ i = j ∨ Overlaps d i d' j := by
  by_cases hw : w = ""
  · subst hw
    rw [String.append_empty] at hd
    rw [String.empty_append] at hj
    exact .inl ⟨hd, natText_inj hj.symm⟩
  · exact .inr ⟨w, hw, hd, hj⟩

theorem Overlaps.append_eq {d d' : String} {i j : Nat} (h : Overlaps d i d' j) :
    d ++ toString i = d' ++ toString j := by
  obtain ⟨w, -, rfl, hj⟩ := h
  rw [hj, String.append_assoc]

theorem append_natText_eq_iff {d d' : String} {i j : Nat} :
    d ++ toString i = d' ++ toString j ↔
      d = d' ∧ i = j ∨ Overlaps d i d' j ∨ Overlaps d' j d i := by
  constructor
  · intro h
    rw [← String.toList_inj, String.toList_append, String.toList_append,
      List.append_eq_append_iff] at h
    rcases h with ⟨w, hd', hi⟩ | ⟨w, hd, hj⟩
    · rw [← String.toList_ofList (l := w), ← String.toList_append, String.toList_inj] at hd' hi
      rcases overlaps_of_append hd' hi with ⟨hname, hnumber⟩ | h
      · exact .inl ⟨hname.symm, hnumber.symm⟩
      · exact .inr (.inr h)
    · rw [← String.toList_ofList (l := w), ← String.toList_append, String.toList_inj] at hd hj
      exact (overlaps_of_append hd hj).imp_right .inl
  · rintro (⟨rfl, rfl⟩ | h | h)
    · rfl
    · exact h.append_eq
    · exact h.append_eq.symm

theorem Overlaps.exists_digit {d d' : String} {i j : Nat} (h : Overlaps d i d' j) :
    ∃ c, d.toList.getLast? = some c ∧ c.isDigit = true := by
  obtain ⟨w, hw, rfl, hj⟩ := h
  have hne : w.toList ≠ [] := fun hnil => hw (String.toList_eq_nil_iff.1 hnil)
  refine ⟨w.toList.getLast hne, ?_, ?_⟩
  · rw [String.toList_append, List.getLast?_append, List.getLast?_eq_some_getLast hne,
      Option.some_or]
  · apply isDigit_of_mem_natText (n := j)
    rw [hj, String.toList_append]
    exact List.mem_append_left _ (List.getLast_mem hne)

def IsRing (modulo : Nat) (a : Axis) : Prop :=
  a.dimension.isStepping = true ∧ a.function.timeSize = some modulo

def At (slots : OrdMap Dimension (List Slot)) (root : Dimension) (i : Nat) (s : Slot) : Prop :=
  ((slots.find? root).getD [])[i]? = some s

section Collected

variable {eqs : List Equation} {slots : OrdMap Dimension (List Slot)}
  (h : collect eqs = pure slots)
include h

theorem listed_of_collect (root : Dimension) :
    Listed (eqs.flatMap Equation.axes) root ((slots.find? root).getD []) := by
  have hlisted := listed_collect eqs root
  rwa [h, Checked.value_pure] at hlisted

theorem fits_index {a : Axis} (ha : a ∈ eqs.flatMap Equation.axes) {modulo : Nat}
    (hring : IsRing modulo a) : a.index.simplify.fits = true :=
  fits_simplify_of_collect (Checked.eq_pure_iff.1 h).1 ha hring.2 hring.1

theorem fits_origin {root : Dimension} {s : Slot} (hs : s ∈ (slots.find? root).getD []) :
    (Affine.ofExpr s.origin).fits = true := by
  obtain ⟨a, ha, -, horigin, hstepping, -, hsize, -⟩ := (listed_of_collect h root).drawn s hs
  have hfits := fits_index h ha ⟨hstepping, hsize⟩
  rw [horigin, Affine.ofExpr_simplify hfits]
  simp only [Expr.simplify, Checked.fits_bind, Bool.and_eq_true] at hfits
  exact hfits.1

theorem existsUnique_slot {a : Axis} (ha : a ∈ eqs.flatMap Equation.axes) {modulo : Nat}
    (hring : IsRing modulo a) :
    ∃! s, s ∈ (slots.find? a.dimension.root).getD [] ∧ s.modulo = modulo ∧
      s.isFor a.index = pure true := by
  have hlisted := listed_of_collect h a.dimension.root
  have hfits := fits_index h ha hring
  have hisFor {s : Slot} (hs : s ∈ (slots.find? a.dimension.root).getD []) :
      s.isFor a.index = pure true ↔ key s.origin = key a.index := by
    have hindex : (Affine.ofExpr a.index).fits = true := by
      simp only [Expr.simplify, Checked.fits_bind, Bool.and_eq_true] at hfits
      exact hfits.1
    rw [isFor_eq_pure (fits_origin h hs) hindex, Checked.eq_pure_iff]
    simp
  obtain ⟨s, hs, hserves⟩ : ∃ s ∈ (slots.find? a.dimension.root).getD [],
      s.Serves modulo a.index := by
    have hneeds : Needs a.dimension.root modulo a.index a :=
      ⟨hring.1, rfl, hring.2, key_simplify hfits⟩
    obtain ⟨eq, heq, haxis⟩ := List.mem_flatMap.1 ha
    have hcollected := (exists_mem_collect eqs).2 ⟨eq, heq, a, haxis, hneeds⟩
    rwa [h, Checked.value_pure] at hcollected
  refine ⟨s, ⟨hs, hserves.1, (hisFor hs).2 hserves.2⟩, ?_⟩
  rintro t ⟨ht, hmodulo, hkey⟩
  rw [hisFor ht] at hkey
  apply Classical.byContradiction
  intro hne
  have : Std.Symm fun s t : Slot => ¬t.Serves s.modulo s.origin :=
    ⟨fun s t hst hts => hst ⟨hts.1.symm, hts.2.symm⟩⟩
  apply hlisted.apart.forall hs ht (Ne.symm hne)
  exact ⟨hmodulo.trans hserves.1.symm, hkey.trans hserves.2.symm⟩

theorem pairwise_isFor (root : Dimension) :
    ((slots.find? root).getD []).Pairwise fun s t =>
      s.modulo = t.modulo → s.isFor t.origin = pure false := by
  apply (listed_of_collect h root).apart.imp_of_mem
  intro s t hs ht hst hmodulo
  rw [isFor_eq_pure (fits_origin h hs) (fits_origin h ht)]
  have hkey : key s.origin ≠ key t.origin := fun hkey => hst ⟨hmodulo.symm, hkey.symm⟩
  simp [hkey]

theorem name_eq_iff {root root' : Dimension} {i j : Nat} {s t : Slot} (hs : At slots root i s)
    (ht : At slots root' j t) :
    s.name = t.name ↔ s.stepping.name = t.stepping.name ∧ i = j ∨
      Overlaps s.stepping.name i t.stepping.name j ∨
      Overlaps t.stepping.name j s.stepping.name i := by
  rw [(listed_of_collect h root).named i s hs, (listed_of_collect h root').named j t ht,
    append_natText_eq_iff]

theorem exists_ring_of_at {root : Dimension} {i : Nat} {s : Slot} (hs : At slots root i s) :
    ∃ a ∈ eqs.flatMap Equation.axes, IsRing s.modulo a ∧ s.stepping = a.dimension ∧
      a.dimension.root = root := by
  obtain ⟨a, ha, hstepping, -, hneeds⟩ :=
    (listed_of_collect h root).drawn s (List.mem_of_getElem? hs)
  exact ⟨a, ha, ⟨hneeds.1, hneeds.2.2.1⟩, hstepping, hneeds.2.1⟩

theorem name_ne_of_no_digit
    (hletter : ∀ a ∈ eqs.flatMap Equation.axes, ∀ m, IsRing m a →
      ∀ c, a.dimension.name.toList.getLast? = some c → c.isDigit = false)
    (hroot : ∀ a ∈ eqs.flatMap Equation.axes, ∀ b ∈ eqs.flatMap Equation.axes, ∀ m n,
      IsRing m a → IsRing n b → a.dimension.name = b.dimension.name →
      a.dimension.root = b.dimension.root)
    {root root' : Dimension} {i j : Nat} {s t : Slot} (hs : At slots root i s)
    (ht : At slots root' j t) (hne : (root, i) ≠ (root', j)) : s.name ≠ t.name := by
  obtain ⟨a, ha, hringa, hsteppinga, rfl⟩ := exists_ring_of_at h hs
  obtain ⟨b, hb, hringb, hsteppingb, rfl⟩ := exists_ring_of_at h ht
  rw [Ne, name_eq_iff h hs ht, hsteppinga, hsteppingb]
  rintro (⟨hname, rfl⟩ | hoverlaps | hoverlaps)
  · exact hne (by rw [hroot a ha b hb _ _ hringa hringb hname])
  · obtain ⟨c, hlast, hdigit⟩ := hoverlaps.exists_digit
    rw [hletter a ha _ hringa c hlast] at hdigit
    cases hdigit
  · obtain ⟨c, hlast, hdigit⟩ := hoverlaps.exists_digit
    rw [hletter b hb _ hringb c hlast] at hdigit
    cases hdigit

end Collected

/--
Slots and indices into ring buffers match. Each index has exactly one slot of its size among those
of the root, and no two slots of a root stand for the same index. Two slots have the same name
exactly if they have the same number and dimensions of the same name, or if the names of their
dimensions overlap; so all names are different if the stepping dimensions of different roots have
different names and none of these ends with a digit.
-/
theorem collect_one_to_one {eqs : List Equation} {slots : OrdMap Dimension (List Slot)}
    (h : collect eqs = pure slots) :
    (∀ a ∈ eqs.flatMap Equation.axes, ∀ m, IsRing m a →
      ∃! s, s ∈ (slots.find? a.dimension.root).getD [] ∧ s.modulo = m ∧
        s.isFor a.index = pure true) ∧
    (∀ root, ((slots.find? root).getD []).Pairwise fun s t =>
      s.modulo = t.modulo → s.isFor t.origin = pure false) ∧
    (∀ root root' i j s t, At slots root i s → At slots root' j t →
      (s.name = t.name ↔ s.stepping.name = t.stepping.name ∧ i = j ∨
        Overlaps s.stepping.name i t.stepping.name j ∨
        Overlaps t.stepping.name j s.stepping.name i)) ∧
    ((∀ a ∈ eqs.flatMap Equation.axes, ∀ m, IsRing m a →
        ∀ c, a.dimension.name.toList.getLast? = some c → c.isDigit = false) →
      (∀ a ∈ eqs.flatMap Equation.axes, ∀ b ∈ eqs.flatMap Equation.axes, ∀ m n,
        IsRing m a → IsRing n b → a.dimension.name = b.dimension.name →
        a.dimension.root = b.dimension.root) →
      ∀ root root' i j s t, At slots root i s → At slots root' j t → (root, i) ≠ (root', j) →
        s.name ≠ t.name) := by
  refine ⟨fun a ha m hring => existsUnique_slot h ha hring, pairwise_isFor h, ?_, ?_⟩
  · exact fun root root' i j s t hs ht => name_eq_iff h hs ht
  · exact fun hletter hroot root root' i j s t hs ht => name_ne_of_no_digit h hletter hroot hs ht

def ring (name dimension : String) : GridFunction :=
  { FunctionDecl.declare name .dense [.stepping dimension (.time "time")] [.ofInt 16] with
    timeSize := some 16 }

def ringAt (name dimension : String) (steps : Int) : Expr :=
  .access (ring name dimension)
    [if steps = 0 then .sym dimension else .add [.num steps, .sym dimension]]

/-- The equation `u[t + 1] = u[t] + v[s]`. -/
def coupled : Equation :=
  ⟨ringAt "u" "t" 1, .add [ringAt "u" "t" 0, ringAt "v" "s" 0], false⟩

theorem collect_one_to_one_coupled :
    ∃ slots, collect [coupled] = pure slots ∧
      (∃! s, s ∈ (slots.find? (.time "time")).getD [] ∧ s.modulo = 16 ∧
        s.isFor (.add [.num 1, .sym "t"]) = pure true) ∧
      ∀ i j s t, At slots (.time "time") i s → At slots (.time "time") j t → i ≠ j →
        s.name ≠ t.name := by
  have hslots : collect [coupled] = pure (collect [coupled]).value :=
    Checked.eq_pure_iff.2 ⟨by decide +kernel, rfl⟩
  have haxes : ∀ a ∈ [coupled].flatMap Equation.axes,
      a.dimension = .stepping "t" (.time "time") ∨ a.dimension = .stepping "s" (.time "time") := by
    decide +kernel
  obtain ⟨hunique, -, -, hnames⟩ := collect_one_to_one hslots
  refine ⟨_, hslots, ?_, fun i j s t hs ht hij => ?_⟩
  · exact hunique ⟨ring "u" "t", .stepping "t" (.time "time"), .add [.num 1, .sym "t"]⟩
      (List.mem_cons_self ..) 16 ⟨rfl, rfl⟩
  · refine hnames ?_ ?_ _ _ i j s t hs ht fun h => hij (Prod.mk.inj h).2
    · intro a ha m _ c hc
      rcases haxes a ha with hd | hd
      · rw [hd] at hc
        obtain rfl := Option.some.inj hc
        rfl
      · rw [hd] at hc
        obtain rfl := Option.some.inj hc
        rfl
    · intro a ha b hb m n _ _ _
      rcases haxes a ha with hd | hd <;> rcases haxes b hb with hd' | hd' <;> rw [hd, hd'] <;> rfl

/-- The equation `s = a[t1] + u[t] + u[t + 1] + .. + u[t + 9]`. -/
def crowded : Equation :=
  ⟨.sym "s", .add (ringAt "a" "t1" 0 :: (List.range 10).map fun k => ringAt "u" "t" k), false⟩

/-- The slots of `a[t1]` and of `u[t + 9]` are different, but both are named `t10`. -/
theorem collect_crowded_clash :
    ∃ slots s t, collect [crowded] = pure slots ∧ At slots (.time "time") 0 s ∧
      At slots (.time "time") 10 t ∧ s ≠ t ∧ s.name = t.name := by
  have hfirst : At (collect [crowded]).value (.time "time") 0
      ⟨"t10", .stepping "t1" (.time "time"), .sym "t1", 16⟩ := by
    unfold At
    decide +kernel
  have hlast : At (collect [crowded]).value (.time "time") 10
      ⟨"t10", .stepping "t" (.time "time"), .add [.num 9, .sym "t"], 16⟩ := by
    unfold At
    decide +kernel
  have hslots : collect [crowded] = pure (collect [crowded]).value :=
    Checked.eq_pure_iff.2 ⟨by decide +kernel, rfl⟩
  exact ⟨_, _, _, hslots, hfirst, hlast, by decide +kernel, rfl⟩

end Slot

end Stencil
